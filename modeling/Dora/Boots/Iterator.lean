import Dora.Boots.Data

/-!
# The bytecode iterator

Unlike the reader of the virtual machine, the reader of the boots compiler passes the width of the
operands along and compares the opcode with one constant after the other. An access out of bounds
and a `fatalError` are `none`.

## Main definitions

* `BytecodeIterator.readOperands`: the operands behind an opcode
* `decodeBytecode`: all instructions of a code
-/

namespace Dora.Boots

open Opc

structure BytecodeIterator where
  data : List UInt8
  pos : ℕ
  length : ℕ

/-- Methods of the iterator: they move its position and may fail. -/
abbrev IterM := StateT BytecodeIterator Option

structure BytecodeInstructionInfo where
  start : ℕ
  opcode : BitVec 32
  size : ℕ
  inst : BytecodeInstruction
  deriving DecidableEq

namespace BytecodeIterator

def new (data : List UInt8) : BytecodeIterator := ⟨data, 0, data.length⟩

def readByte : IterM (BitVec 32) := fun it => do
  let value ← it.data[it.pos]?
  some (value.toBitVec.setWidth 32, { it with pos := it.pos + 1 })

def readInt32 : IterM (BitVec 32) := do
  let by1 ← readByte
  let by2 ← readByte
  let by3 ← readByte
  let by4 ← readByte
  pure ((by4 <<< 24) ||| (by3 <<< 16) ||| (by2 <<< 8) ||| by1)

def readIndex (wide : Bool) : IterM (BitVec 32) := if wide then readInt32 else readByte

def readRegister (wide : Bool) : IterM BytecodeRegister := return ⟨← readIndex wide⟩

def readGlobalId (wide : Bool) : IterM GlobalId := return ⟨← readIndex wide⟩

def readConstPoolId (wide : Bool) : IterM ConstPoolId := return ⟨← readIndex wide⟩

def readOffset (wide : Bool) : IterM (BitVec 32) := readIndex wide

def readOpcode : IterM (Bool × BitVec 32) := do
  let opcode ← readByte
  if opcode = bcWide then
    let opcode ← readByte
    pure (true, opcode)
  else
    pure (false, opcode)

section Branches

variable (wide : Bool) (inst : BytecodeRegister → BytecodeInstruction)
  (inst2 : BytecodeRegister → BytecodeRegister → BytecodeInstruction)
  (inst3 : BytecodeRegister → BytecodeRegister → BytecodeRegister → BytecodeInstruction)
  (instIdx : BytecodeRegister → ConstPoolId → BytecodeInstruction)
  (inst2Idx : BytecodeRegister → BytecodeRegister → ConstPoolId → BytecodeInstruction)

/-- The branches of `readInstruction` for an instruction with registers only. -/
def readReg1 : IterM BytecodeInstruction := return inst (← readRegister wide)

def readReg2 : IterM BytecodeInstruction :=
  return inst2 (← readRegister wide) (← readRegister wide)

def readReg3 : IterM BytecodeInstruction :=
  return inst3 (← readRegister wide) (← readRegister wide) (← readRegister wide)

/-- The branches for registers and a constant. -/
def readReg1Idx : IterM BytecodeInstruction :=
  return instIdx (← readRegister wide) (← readConstPoolId wide)

def readReg2Idx : IterM BytecodeInstruction :=
  return inst2Idx (← readRegister wide) (← readRegister wide) (← readConstPoolId wide)

end Branches

/-- The operands of an instruction: the branches of `readInstruction`, of which the first one and
the last one are fatal errors. -/
def readOperands (wide : Bool) (opcode : BitVec 32) : IterM BytecodeInstruction :=
  if opcode = bcWide then failure
  else if opcode = bcAdd then readReg3 wide .add
  else if opcode = bcSub then readReg3 wide .sub
  else if opcode = bcNeg then readReg2 wide .neg
  else if opcode = bcMul then readReg3 wide .mul
  else if opcode = bcDiv then readReg3 wide .div
  else if opcode = bcMod then readReg3 wide .mod
  else if opcode = bcAnd then readReg3 wide .and
  else if opcode = bcOr then readReg3 wide .or
  else if opcode = bcXor then readReg3 wide .xor
  else if opcode = bcNot then readReg2 wide .not
  else if opcode = bcShl then readReg3 wide .shl
  else if opcode = bcShr then readReg3 wide .shr
  else if opcode = bcSar then readReg3 wide .sar
  else if opcode = bcMov then readReg2 wide .mov
  else if opcode = bcLoadField then readReg2Idx wide .loadField
  else if opcode = bcStoreField then readReg2Idx wide .storeField
  else if opcode = bcLoadGlobal then return .loadGlobal (← readRegister wide) (← readGlobalId wide)
  else if opcode = bcStoreGlobal then
    return .storeGlobal (← readRegister wide) (← readGlobalId wide)
  else if opcode = bcPushRegister then readReg1 wide .pushRegister
  else if opcode = bcConstTrue then readReg1 wide .constTrue
  else if opcode = bcConstFalse then readReg1 wide .constFalse
  else if opcode = bcConstUint8 then do
    let dest ← readRegister wide
    let value := UInt8.ofBitVec ((← readByte).setWidth 8)
    pure (.constUInt8 dest value)
  else if opcode = bcConstChar then readReg1Idx wide .constChar
  else if opcode = bcConstInt32 then readReg1Idx wide .constInt32
  else if opcode = bcConstInt64 then readReg1Idx wide .constInt64
  else if opcode = bcConstFloat32 then readReg1Idx wide .constFloat32
  else if opcode = bcConstFloat64 then readReg1Idx wide .constFloat64
  else if opcode = bcConstString then readReg1Idx wide .constString
  else if opcode = bcTestEq then readReg3 wide .testEq
  else if opcode = bcTestNe then readReg3 wide .testNe
  else if opcode = bcTestGt then readReg3 wide .testGt
  else if opcode = bcTestGe then readReg3 wide .testGe
  else if opcode = bcTestLt then readReg3 wide .testLt
  else if opcode = bcTestLe then readReg3 wide .testLe
  else if opcode = bcLoopStart then pure .loopStart
  else if opcode = bcJumpLoop then return .jumpLoop (← readOffset wide)
  else if opcode = bcJumpIfFalse then return .jumpIfFalse (← readRegister wide) (← readOffset wide)
  else if opcode = bcJumpIfFalseConst then readReg1Idx wide .jumpIfFalseConst
  else if opcode = bcJumpIfTrue then return .jumpIfTrue (← readRegister wide) (← readOffset wide)
  else if opcode = bcJumpIfTrueConst then readReg1Idx wide .jumpIfTrueConst
  else if opcode = bcJump then return .jump (← readOffset wide)
  else if opcode = bcJumpConst then return .jumpConst (← readConstPoolId wide)
  else if opcode = bcInvokeDirect then readReg1Idx wide .invokeDirect
  else if opcode = bcInvokeVirtual then readReg1Idx wide .invokeVirtual
  else if opcode = bcInvokeStatic then readReg1Idx wide .invokeStatic
  else if opcode = bcNewObject then readReg1Idx wide .newObject
  else if opcode = bcNewArray then
    return .newArray (← readRegister wide) (← readConstPoolId wide) (← readRegister wide)
  else if opcode = bcNewLambda then readReg1Idx wide .newLambda
  else if opcode = bcArrayLength then readReg2 wide .arrayLength
  else if opcode = bcLoadArray then readReg3 wide .loadArray
  else if opcode = bcStoreArray then readReg3 wide .storeArray
  else if opcode = bcRet then readReg1 wide .ret
  else failure

def readInstruction : IterM BytecodeInstructionInfo := do
  let start := (← get).pos
  let (wide, opcode) ← readOpcode
  let inst ← readOperands wide opcode
  let size := (← get).pos - start
  pure ⟨start, opcode, size, inst⟩

def next : IterM (Option BytecodeInstructionInfo) := do
  let it ← get
  if it.pos < it.length then
    return some (← readInstruction)
  else
    return none

/-- The loop of `decodeBytecode`. Every instruction takes at least one byte, so the length of the
code bounds the number of rounds. -/
def decodeLoop : ℕ → IterM (List BytecodeInstructionInfo)
  | 0 => failure
  | fuel + 1 => do
    match ← next with
    | some instInfo => return instInfo :: (← decodeLoop fuel)
    | none => return []

end BytecodeIterator

def decodeBytecode (code : List UInt8) : Option (List BytecodeInstructionInfo) :=
  (BytecodeIterator.decodeLoop (code.length + 1) (.new code)).map Prod.fst

end Dora.Boots
