import Mathlib.Data.Int.Notation
import Dora.Boots.Data

/-!
# The bytecode builder

The tests of the boots compiler build bytecode with a builder of its own. A failed `assert`, an
access out of bounds and a `fatalError` are `none`.

## Main definitions

* `BytecodeLabel`: a label is an index into the offsets, which are negative until it is bound
* `BytecodeBuilder.exec`: the calls
* `BytecodeBuilder.generate`: the function, with its jumps resolved
-/

namespace Dora.Boots

open Opc

structure ClassDefId where
  value : BitVec 32
  deriving DecidableEq, Repr

structure FieldId where
  value : BitVec 32
  deriving DecidableEq, Repr

structure FctId where
  value : BitVec 32
  deriving DecidableEq, Repr

/-- A label, by its place in the order of creation. -/
structure BytecodeLabel where
  id : ℕ
  deriving DecidableEq, Repr

structure UnresolvedJump where
  inst : BitVec 32
  target : BitVec 32
  label : BytecodeLabel
  deriving DecidableEq, Repr

structure BytecodeBuilder where
  code : List UInt8
  constPool : List ConstPoolEntry
  registers : List BytecodeType
  unresolvedJumps : List UnresolvedJump
  arguments : BitVec 32
  /-- The offsets of the labels. -/
  labels : List (BitVec 32)

/-- The conversion `toInt32` of a size. -/
def toInt32 (size : ℕ) : BitVec 32 := BitVec.ofNat 32 size

def isWide (val : BitVec 32) : Bool := val.toInt > 255

namespace BytecodeBuilder

/-- `BytecodeBuilder::new`. -/
def new : BytecodeBuilder := ⟨[], [], [], [], 0, []⟩

variable (b : BytecodeBuilder)

/-! ## Labels -/

variable (lbl : BytecodeLabel)

/-- `BytecodeLabel::bindTo`. -/
def bindTo (offset : BitVec 32) : Option BytecodeBuilder :=
  if 0 ≤ offset.toInt ∧ lbl.id < b.labels.length then
    some { b with labels := b.labels.set lbl.id offset }
  else none

/-- `BytecodeLabel::isBound`. -/
def isBound : Option Bool := b.labels[lbl.id]?.map fun off => 0 ≤ off.toInt

/-- `BytecodeLabel::offset`. -/
def offset : Option (BitVec 32) := do
  let off ← b.labels[lbl.id]?
  guard (0 ≤ off.toInt)
  some off

def createLabel : BytecodeLabel × BytecodeBuilder :=
  (⟨b.labels.length⟩, { b with labels := b.labels ++ [-1] })

def defineLabel : Option (BytecodeLabel × BytecodeBuilder) := do
  let (lbl, b) := b.createLabel
  return (lbl, ← b.bindTo lbl (toInt32 b.code.length))

def bindLabel : Option BytecodeBuilder := b.bindTo lbl (toInt32 b.code.length)

/-! ## Registers and constants -/

def addRegister (ty : BytecodeType) : BytecodeRegister × BytecodeBuilder :=
  (⟨toInt32 (b.registers.length + 1) - 1⟩, { b with registers := b.registers ++ [ty] })

/-- The source adds one register more than its count says. -/
def addNRegisters (ty : BytecodeType) (count : ℤ) : BytecodeBuilder :=
  { b with registers := b.registers ++ List.replicate count.toNat ty ++ [ty] }

def addRegisters (types : List BytecodeType) : BytecodeBuilder :=
  { b with registers := b.registers ++ types }

def setArguments (arguments : BitVec 32) : BytecodeBuilder := { b with arguments := arguments }

def addConst (entry : ConstPoolEntry) : ConstPoolId × BytecodeBuilder :=
  (⟨toInt32 (b.constPool.length + 1) - 1⟩, { b with constPool := b.constPool ++ [entry] })

/-! ## Bytes -/

def emitByte (val : BitVec 32) : Option BytecodeBuilder :=
  if 0 ≤ val.toInt ∧ val.toInt ≤ 255 then
    some { b with code := b.code ++ [UInt8.ofBitVec (val.setWidth 8)] }
  else none

def emitInt32 (val : BitVec 32) : Option BytecodeBuilder := do
  guard (0 ≤ val.toInt)
  let b ← b.emitByte (val &&& 0xFF)
  let b ← b.emitByte ((val >>> 8) &&& 0xFF)
  let b ← b.emitByte ((val >>> 16) &&& 0xFF)
  b.emitByte ((val >>> 24) &&& 0xFF)

def emitWide : Option BytecodeBuilder := b.emitByte bcWide

def emitOpcode (opcode : BitVec 32) : Option BytecodeBuilder :=
  if 255 ≤ opcode.toInt then do
    let b ← b.emitByte 255
    guard (opcode.toInt < 512)
    b.emitByte (opcode - 255)
  else b.emitByte opcode

/-- The functions `emitVal1` to `emitVal5`: an opcode with its values, wide if one of them is. -/
def emitVals (opcode : BitVec 32) (vals : List (BitVec 32)) : Option BytecodeBuilder :=
  if vals.any isWide then do
    let b ← b.emitWide
    let b ← b.emitOpcode opcode
    vals.foldlM emitInt32 b
  else do
    let b ← b.emitOpcode opcode
    vals.foldlM emitByte b

section Families

variable (inst opcode v1 v2 v3 v4 : BitVec 32) (r1 r2 r3 dest : BytecodeRegister)
  (idx : ConstPoolId) (glob : GlobalId) (cls : ClassDefId) (field : FieldId) (fct : FctId)
  (start : BytecodeRegister) (count offset : BitVec 32)

def emitVal1 := b.emitVals opcode []
def emitVal2 := b.emitVals opcode [v1]
def emitVal3 := b.emitVals opcode [v1, v2]
def emitVal4 := b.emitVals opcode [v1, v2, v3]
def emitVal5 := b.emitVals opcode [v1, v2, v3, v4]
def emitInst := b.emitVal1 inst
def emitReg1 := b.emitVal2 inst r1.value
def emitReg1AndIdx := b.emitVal3 inst r1.value idx.value

def emitReg1AndByte (inst : BitVec 32) (r1 : BytecodeRegister) (offset : UInt8) :
    Option BytecodeBuilder := do
  let b ← b.emitVal2 inst r1.value
  b.emitByte (offset.toBitVec.setWidth 32)

def emitReg2 := b.emitVal3 inst r1.value r2.value
def emitReg3 := b.emitVal4 inst r1.value r2.value r3.value
def emitGlobal := b.emitVal3 inst r1.value glob.value
def emitField := b.emitVal5 inst r1.value r2.value cls.value field.value
def emitFct := b.emitVal5 inst dest.value fct.value start.value count
def emitJmp := b.emitVal2 inst offset

end Families

def emitJmpForward (inst instConst : BitVec 32) (opnd : Option BytecodeRegister)
    (lbl : BytecodeLabel) : Option BytecodeBuilder := do
  guard (isWide inst = false)
  guard (isWide instConst = false)
  let start := toInt32 b.code.length
  if opnd.any (fun reg => isWide reg.value) || isWide (toInt32 b.constPool.length) then
    let b ← b.emitWide
    let b ← b.emitOpcode inst
    let b ← opnd.elim (some b) fun reg => b.emitInt32 reg.value
    let target := toInt32 b.code.length
    let b ← b.emitInt32 0
    some { b with unresolvedJumps := b.unresolvedJumps ++ [⟨start, target, lbl⟩] }
  else
    let b ← b.emitOpcode instConst
    let b ← opnd.elim (some b) fun reg => b.emitByte reg.value
    let (idx, b) := b.addConst (.int32 0)
    let target := toInt32 b.code.length
    let b ← b.emitByte idx.value
    some { b with unresolvedJumps := b.unresolvedJumps ++ [⟨start, target, lbl⟩] }

/-- A forward jump; the label must not be bound yet. -/
def emitJmpUnbound (inst instConst : BitVec 32) (opnd : Option BytecodeRegister)
    (lbl : BytecodeLabel) : Option BytecodeBuilder := do
  guard ((← b.isBound lbl) = false)
  b.emitJmpForward inst instConst opnd lbl

def emitJumpLoop : Option BytecodeBuilder := do
  guard ((← b.isBound lbl) = true)
  let offset := toInt32 b.code.length - (← b.offset lbl)
  b.emitJmp bcJumpLoop offset

/-! ## The resolution of the jumps -/

/-- Store a byte into the code. The index is an `Int32`, and a negative one is out of bounds. -/
def setCode (idx : ℤ) (value : UInt8) : Option BytecodeBuilder :=
  if 0 ≤ idx ∧ idx.toNat < b.code.length then
    some { b with code := b.code.set idx.toNat value }
  else none

/-- A byte of the code. -/
def codeAt (idx : ℤ) : Option UInt8 := if 0 ≤ idx then b.code[idx.toNat]? else none

def patchInt32 (idx : BitVec 32) (val : BitVec 32) : Option BytecodeBuilder := do
  guard (0 ≤ val.toInt)
  let b ← b.setCode idx.toInt (UInt8.ofBitVec ((val &&& 0xFF).setWidth 8))
  let b ← b.setCode (idx.toInt + 1) (UInt8.ofBitVec (((val >>> 8) &&& 0xFF).setWidth 8))
  let b ← b.setCode (idx.toInt + 2) (UInt8.ofBitVec (((val >>> 16) &&& 0xFF).setWidth 8))
  b.setCode (idx.toInt + 3) (UInt8.ofBitVec (((val >>> 24) &&& 0xFF).setWidth 8))

/-- The opcode of the jump with an immediate distance, for one through the constant pool. -/
def immediateJump (opcode : BitVec 32) : Option (BitVec 32) :=
  if opcode = bcJumpConst then some bcJump
  else if opcode = bcJumpIfFalseConst then some bcJumpIfFalse
  else if opcode = bcJumpIfTrueConst then some bcJumpIfTrue
  else none

/-- One round of `resolveJumps`. -/
def resolveJump (jump : UnresolvedJump) : Option BytecodeBuilder := do
  guard ((← b.isBound jump.label) = true)
  let target ← b.offset jump.label
  guard (jump.inst.toInt < target.toInt)
  let offset := target - jump.inst
  let opcode := (← b.codeAt jump.inst.toInt).toBitVec.setWidth 32
  if opcode = bcWide then
    b.patchInt32 jump.target offset
  else if isWide offset then
    let idx := (← b.codeAt jump.target.toInt).toNat
    guard (idx < b.constPool.length)
    some { b with constPool := b.constPool.set idx (.int32 offset) }
  else
    let opcode ← immediateJump opcode
    let b ← b.setCode jump.inst.toInt (UInt8.ofBitVec (opcode.setWidth 8))
    b.setCode jump.target.toInt (UInt8.ofBitVec (offset.setWidth 8))

def resolveJumps : Option BytecodeBuilder := do
  let b ← b.unresolvedJumps.foldlM resolveJump b
  some { b with unresolvedJumps := [] }

def generate : Option BytecodeFunction := do
  let b ← b.resolveJumps
  guard (b.arguments.toInt ≤ b.registers.length)
  some ⟨b.code, b.constPool, b.registers, b.arguments⟩

end BytecodeBuilder

/-! ## Calls -/

/-- A call of a public method of the builder. -/
inductive Call
  | addRegister (ty : BytecodeType)
  | addNRegisters (ty : BytecodeType) (count : ℤ)
  | addRegisters (types : List BytecodeType)
  | createLabel
  | defineLabel
  | bindLabel (lbl : BytecodeLabel)
  | setArguments (arguments : BitVec 32)
  | addConst (entry : ConstPoolEntry)
  | emitAdd (dest lhs rhs : BytecodeRegister)
  | emitSub (dest lhs rhs : BytecodeRegister)
  | emitNeg (dest src : BytecodeRegister)
  | emitMul (dest lhs rhs : BytecodeRegister)
  | emitDiv (dest lhs rhs : BytecodeRegister)
  | emitMod (dest lhs rhs : BytecodeRegister)
  | emitAnd (dest lhs rhs : BytecodeRegister)
  | emitOr (dest lhs rhs : BytecodeRegister)
  | emitXor (dest lhs rhs : BytecodeRegister)
  | emitNot (dest src : BytecodeRegister)
  | emitShl (dest lhs rhs : BytecodeRegister)
  | emitShr (dest lhs rhs : BytecodeRegister)
  | emitSar (dest lhs rhs : BytecodeRegister)
  | emitMov (dest src : BytecodeRegister)
  | emitLoadField (dest obj : BytecodeRegister) (cls : ClassDefId) (field : FieldId)
  | emitStoreField (src obj : BytecodeRegister) (cls : ClassDefId) (field : FieldId)
  | emitLoadGlobal (dest : BytecodeRegister) (glob : GlobalId)
  | emitStoreGlobal (src : BytecodeRegister) (glob : GlobalId)
  | emitPushRegister (src : BytecodeRegister)
  | emitConstTrue (dest : BytecodeRegister)
  | emitConstFalse (dest : BytecodeRegister)
  | emitConstByte (dest : BytecodeRegister) (value : UInt8)
  | emitConstChar (dest : BytecodeRegister) (idx : ConstPoolId)
  | emitConstInt32 (dest : BytecodeRegister) (idx : ConstPoolId)
  | emitConstInt64 (dest : BytecodeRegister) (idx : ConstPoolId)
  | emitConstFloat32 (dest : BytecodeRegister) (idx : ConstPoolId)
  | emitConstFloat64 (dest : BytecodeRegister) (idx : ConstPoolId)
  | emitConstString (dest : BytecodeRegister) (idx : ConstPoolId)
  | emitTestEq (dest lhs rhs : BytecodeRegister)
  | emitTestNe (dest lhs rhs : BytecodeRegister)
  | emitTestGt (dest lhs rhs : BytecodeRegister)
  | emitTestGe (dest lhs rhs : BytecodeRegister)
  | emitTestLt (dest lhs rhs : BytecodeRegister)
  | emitTestLe (dest lhs rhs : BytecodeRegister)
  | emitLoopStart
  | emitJumpLoop (lbl : BytecodeLabel)
  | emitJumpIfFalse (opnd : BytecodeRegister) (lbl : BytecodeLabel)
  | emitJumpIfTrue (opnd : BytecodeRegister) (lbl : BytecodeLabel)
  | emitJump (lbl : BytecodeLabel)
  | emitInvokeDirect (dest : BytecodeRegister) (fct : FctId) (start : BytecodeRegister)
    (count : BitVec 32)
  | emitInvokeVirtual (dest : BytecodeRegister) (fct : FctId) (start : BytecodeRegister)
    (count : BitVec 32)
  | emitInvokeStatic (dest : BytecodeRegister) (fct : FctId) (start : BytecodeRegister)
    (count : BitVec 32)
  | emitNewObject (dest : BytecodeRegister) (cls : ClassDefId)
  | emitArrayLength (dest : BytecodeRegister)
  | emitLoadArray (dest arr idx : BytecodeRegister)
  | emitStoreArray (src arr idx : BytecodeRegister)
  | emitRet (opnd : BytecodeRegister)

namespace BytecodeBuilder

/-- The public methods: what each of them does. -/
def exec (b : BytecodeBuilder) : Call → Option BytecodeBuilder
  | .addRegister ty => some (b.addRegister ty).2
  | .addNRegisters ty count => some (b.addNRegisters ty count)
  | .addRegisters types => some (b.addRegisters types)
  | .createLabel => some b.createLabel.2
  | .defineLabel => b.defineLabel.map Prod.snd
  | .bindLabel lbl => b.bindLabel lbl
  | .setArguments arguments => some (b.setArguments arguments)
  | .addConst entry => some (b.addConst entry).2
  | .emitAdd dest lhs rhs => b.emitReg3 bcAdd dest lhs rhs
  | .emitSub dest lhs rhs => b.emitReg3 bcSub dest lhs rhs
  | .emitNeg dest src => b.emitReg2 bcNeg dest src
  | .emitMul dest lhs rhs => b.emitReg3 bcMul dest lhs rhs
  | .emitDiv dest lhs rhs => b.emitReg3 bcDiv dest lhs rhs
  | .emitMod dest lhs rhs => b.emitReg3 bcMod dest lhs rhs
  | .emitAnd dest lhs rhs => b.emitReg3 bcAnd dest lhs rhs
  | .emitOr dest lhs rhs => b.emitReg3 bcOr dest lhs rhs
  | .emitXor dest lhs rhs => b.emitReg3 bcXor dest lhs rhs
  | .emitNot dest src => b.emitReg2 bcNot dest src
  | .emitShl dest lhs rhs => b.emitReg3 bcShl dest lhs rhs
  | .emitShr dest lhs rhs => b.emitReg3 bcShr dest lhs rhs
  | .emitSar dest lhs rhs => b.emitReg3 bcSar dest lhs rhs
  | .emitMov dest src => b.emitReg2 bcMov dest src
  | .emitLoadField dest obj cls field => b.emitField bcLoadField dest obj cls field
  | .emitStoreField src obj cls field => b.emitField bcStoreField src obj cls field
  | .emitLoadGlobal dest glob => b.emitGlobal bcLoadGlobal dest glob
  | .emitStoreGlobal src glob => b.emitGlobal bcStoreGlobal src glob
  | .emitPushRegister src => b.emitReg1 bcPushRegister src
  | .emitConstTrue dest => b.emitReg1 bcConstTrue dest
  | .emitConstFalse dest => b.emitReg1 bcConstFalse dest
  | .emitConstByte dest value => b.emitReg1AndByte bcConstUint8 dest value
  | .emitConstChar dest idx => b.emitReg1AndIdx bcConstChar dest idx
  | .emitConstInt32 dest idx => b.emitReg1AndIdx bcConstInt32 dest idx
  | .emitConstInt64 dest idx => b.emitReg1AndIdx bcConstInt64 dest idx
  | .emitConstFloat32 dest idx => b.emitReg1AndIdx bcConstFloat32 dest idx
  | .emitConstFloat64 dest idx => b.emitReg1AndIdx bcConstFloat64 dest idx
  | .emitConstString dest idx => b.emitReg1AndIdx bcConstString dest idx
  | .emitTestEq dest lhs rhs => b.emitReg3 bcTestEq dest lhs rhs
  | .emitTestNe dest lhs rhs => b.emitReg3 bcTestNe dest lhs rhs
  | .emitTestGt dest lhs rhs => b.emitReg3 bcTestGt dest lhs rhs
  | .emitTestGe dest lhs rhs => b.emitReg3 bcTestGe dest lhs rhs
  | .emitTestLt dest lhs rhs => b.emitReg3 bcTestLt dest lhs rhs
  | .emitTestLe dest lhs rhs => b.emitReg3 bcTestLe dest lhs rhs
  | .emitLoopStart => b.emitInst bcLoopStart
  | .emitJumpLoop lbl => b.emitJumpLoop lbl
  | .emitJumpIfFalse opnd lbl => b.emitJmpUnbound bcJumpIfFalse bcJumpIfFalseConst (some opnd) lbl
  | .emitJumpIfTrue opnd lbl => b.emitJmpUnbound bcJumpIfTrue bcJumpIfTrueConst (some opnd) lbl
  | .emitJump lbl => b.emitJmpUnbound bcJump bcJumpConst none lbl
  | .emitInvokeDirect dest fct start count => b.emitFct bcInvokeDirect dest fct start count
  | .emitInvokeVirtual dest fct start count => b.emitFct bcInvokeVirtual dest fct start count
  | .emitInvokeStatic dest fct start count => b.emitFct bcInvokeStatic dest fct start count
  | .emitNewObject dest cls => b.emitVal3 bcNewObject dest.value cls.value
  | .emitArrayLength dest => b.emitReg1 bcArrayLength dest
  | .emitLoadArray dest arr idx => b.emitReg3 bcLoadArray dest arr idx
  | .emitStoreArray src arr idx => b.emitReg3 bcStoreArray src arr idx
  | .emitRet opnd => b.emitReg1 bcRet opnd

def run (b : BytecodeBuilder) (calls : List Call) : Option BytecodeBuilder := calls.foldlM exec b

end BytecodeBuilder

end Dora.Boots
