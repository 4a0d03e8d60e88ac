import GpgpuSimRuby.Ptx.GenericAddress

/-!
# Operands

`operand_info`, and the registers that `get_operand_value`, `set_operand_value` and their vector
forms read and write.

* An access that the code asserts against is none.
* A register that was never written reads as zero. That `get_reg` enters it into the map then is no
  write.
* A register that the same instruction has written before is not read.
-/

namespace GpgpuSimRuby.Ptx

/-! ## Symbols and operands -/

inductive SymbolClass where
  | label
  | function
  /-- a variable in a space, the registers among them -/
  | variable (space : MemorySpace)
  /-- `_` -/
  | untyped
  deriving DecidableEq, Repr

/-- A symbol, with what `reg_num` gives for it. Registers are counted from 1, and `_` has the number
0. -/
structure OpSymbol where
  name : String
  cls : SymbolClass
  regNum : BitVec 31
  sizeInBytes : Nat
  deriving DecidableEq, Repr

def OpSymbol.isReg (s : OpSymbol) : Bool := s.cls = .variable .reg

/-- The types of values that take several registers, and all others. -/
inductive ValueType where
  | bb128 | bb64 | ff64 | single
  deriving DecidableEq, Repr

inductive OperandType where
  | symbolic | reg | vector | memory | address | builtin | label | literal
  deriving DecidableEq, Repr

/-- The union `m_value`. The elements of a vector go up to the first that is `NULL`. -/
inductive OperandValue where
  | symbolic (s : OpSymbol)
  | vectorSymbolic (elements : List OpSymbol)
  | number
  deriving DecidableEq, Repr

structure OperandInfo where
  type : OperandType
  value : OperandValue
  isVector : Bool
  immediateAddress : Bool
  addrSpace : MemorySpace
  lohi : Nat
  doubleOperandType : Int
  deriving DecidableEq, Repr

namespace OperandInfo

/-- `operand_info( const symbol *addr )`. -/
def ofSymbol (s : OpSymbol) : OperandInfo where
  type :=
    match s.cls with
    | .label => .label
    | .function => .symbolic
    | .variable .shared | .variable .const | .variable .global | .variable .local | .variable .paramLocal
    | .variable .tex => .symbolic
    | _ => .reg
  value := .symbolic s
  isVector := false
  immediateAddress := false
  addrSpace := .undefined
  lohi := 0
  doubleOperandType := 0

/-- An address in brackets: `operand_info( const symbol *addr, int offset )` and
`make_memory_operand`. -/
def memory (s : OpSymbol) : OperandInfo where
  type := .memory
  value := .symbolic s
  isVector := false
  immediateAddress := false
  addrSpace := .undefined
  lohi := 0
  doubleOperandType := 0

/-- An operand that is not there, which the code asserts that it is. -/
def missing : OperandInfo where
  type := .literal
  value := .number
  isVector := false
  immediateAddress := false
  addrSpace := .undefined
  lohi := 0
  doubleOperandType := 0

variable (o : OperandInfo)

def getSymbol : Option OpSymbol :=
  match o.value with
  | .symbolic s => some s
  | _ => none

def elements : List OpSymbol :=
  match o.value with
  | .vectorSymbolic l => l
  | _ => []

def getVectNelem : Nat := o.elements.length

def vecSymbol (idx : Nat) : Option OpSymbol := o.elements[idx]?

def isReg : Bool := o.type = .reg || (o.type = .symbolic && o.getSymbol.any OpSymbol.isReg)

def isParamLocal : Bool := o.type = .symbolic && o.getSymbol.any fun s => s.cls = .variable .paramLocal

def isMemoryOperand : Bool := o.type = .memory

/-- Does the operand name a space of its own? -/
def isMemoryOperand2 : Bool := o.addrSpace ≠ .undefined

end OperandInfo

/-! ## Accesses -/

/-- The registers that are read and written. -/
structure Accesses where
  reads : List OpSymbol
  writes : List OpSymbol

namespace Accesses

def none : Accesses := ⟨[], []⟩

/-- One after the other. -/
instance : Append Accesses := ⟨fun a b => ⟨a.reads ++ b.reads.filter (· ∉ a.writes), a.writes ++ b.writes⟩⟩

end Accesses

def getReg (s : Option OpSymbol) : Accesses := ⟨s.toList, []⟩

/-- `set_reg`, for which `_` is no register. -/
def setReg (s : Option OpSymbol) : Accesses := ⟨[], s.toList.filter fun s => s.name ≠ "_"⟩

namespace OperandInfo

variable (op dst : OperandInfo)

/-- `get_operand_value`. -/
def getOperandValue (opType : ValueType) : Accesses :=
  if op.doubleOperandType = 0 then
    if opType = .single ∨ op.addrSpace ≠ .undefined then
      if op.isReg then getReg op.getSymbol
      else if op.type = .builtin then .none
      else if op.immediateAddress then .none
      else if op.isMemoryOperand then
        if op.getSymbol.any OpSymbol.isReg then getReg op.getSymbol else .none
      else .none
    else if opType = .bb128 then
      getReg (op.vecSymbol 0) ++ getReg (op.vecSymbol 1) ++ getReg (op.vecSymbol 2) ++ getReg (op.vecSymbol 3)
    else getReg (op.vecSymbol 0) ++ getReg (op.vecSymbol 1)
  else if op.doubleOperandType = 1 then getReg (op.vecSymbol 0) ++ getReg (op.vecSymbol 1)
  else if op.doubleOperandType = 2 then
    -- `s[reg1 += reg2]`
    getReg (op.vecSymbol 0) ++ getReg (op.vecSymbol 1) ++ setReg (op.vecSymbol 0)
  else if op.doubleOperandType = 3 then
    -- `s[reg += immediate]`
    getReg op.getSymbol ++ setReg op.getSymbol
  else .none

/-- The old value of a register of which only a half is written. -/
def oldValue (s : Option OpSymbol) : Accesses := if dst.lohi = 1 ∨ dst.lohi = 2 then getReg s else .none

/-- `set_operand_value` without flags. -/
def setOperandValue (type : ValueType) : Accesses :=
  if dst.addrSpace = .undefined then
    if dst.doubleOperandType = -1 then setReg (dst.vecSymbol 0) ++ setReg (dst.vecSymbol 1)
    else if dst.doubleOperandType = -2 ∨ dst.doubleOperandType = -3 then
      dst.oldValue (dst.vecSymbol 1) ++ setReg (dst.vecSymbol 0) ++ setReg (dst.vecSymbol 1)
    else
      match type with
      | .bb128 =>
        setReg (dst.vecSymbol 0) ++ setReg (dst.vecSymbol 1) ++ setReg (dst.vecSymbol 2) ++
          setReg (dst.vecSymbol 3)
      | .bb64 | .ff64 => setReg (dst.vecSymbol 0) ++ setReg (dst.vecSymbol 1)
      | .single => dst.oldValue dst.getSymbol ++ setReg dst.getSymbol
  else if dst.addrSpace = .global ∨ dst.addrSpace = .shared ∨ dst.addrSpace = .local then
    dst.getOperandValue type
  else .none

/-- `set_operand_value` with the overflow and carry flags. -/
def setOperandValueFlags (type : ValueType) : Accesses :=
  dst.setOperandValue type ++
    if dst.doubleOperandType = -2 then getReg (dst.vecSymbol 0) ++ setReg (dst.vecSymbol 0) else .none

def getVectorOperandValues (numElements : Nat) : Accesses :=
  ⟨(op.elements.take numElements).filter fun s => s.name ≠ "_", []⟩

def setVectorOperandValues : Accesses := ⟨[], dst.elements.filter fun s => s.name ≠ "_"⟩

end OperandInfo

end GpgpuSimRuby.Ptx
