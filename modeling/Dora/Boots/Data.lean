import Mathlib.Data.List.Basic

/-!
# Data of the boots compiler

The boots compiler is written in Dora and gets the function it compiles as bytes. Its data are the
bytecode function with its constants and types as far as it knows them. An `Int32` is a `BitVec 32`;
floating-point numbers are their bits, and a `Char` is its code point, which `toCharUnchecked` does
not check.
-/

namespace Dora.Boots

inductive SourceType
  | unit | uint8 | bool | char | int32 | int64 | float32 | float64
  | class (clsId : BitVec 32) (typeParams : List SourceType)
  | struct (structId : BitVec 32) (typeParams : List SourceType)
  | trait (traitId : BitVec 32) (typeParams : List SourceType)
  | tuple (typeParams : List SourceType)
  | typeParam (idx : BitVec 32)

inductive BytecodeType
  | unit | ptr | uint8 | bool | char | int32 | int64 | float32 | float64
  | struct (structId : BitVec 32) (typeParams : List SourceType)
  | tuple (typeParams : List SourceType)
  | typeParam (idx : BitVec 32)

inductive ConstPoolEntry
  | int32 (value : BitVec 32)
  | int64 (value : BitVec 64)
  | float32 (value : BitVec 32)
  | float64 (value : BitVec 64)
  | char (value : BitVec 32)
  | string (value : String)

structure BytecodeFunction where
  code : List UInt8
  constPool : List ConstPoolEntry
  registers : List BytecodeType
  arguments : BitVec 32

inductive Architecture
  | x64 | arm64

structure CompilationInfo where
  bc : BytecodeFunction
  typeParams : List SourceType
  arch : Architecture

/-! ## Instructions -/

structure BytecodeRegister where
  value : BitVec 32
  deriving DecidableEq, Repr

structure GlobalId where
  value : BitVec 32
  deriving DecidableEq, Repr

structure ConstPoolId where
  value : BitVec 32
  deriving DecidableEq, Repr

inductive BytecodeInstruction
  | add (dest lhs rhs : BytecodeRegister)
  | sub (dest lhs rhs : BytecodeRegister)
  | neg (dest src : BytecodeRegister)
  | mul (dest lhs rhs : BytecodeRegister)
  | div (dest lhs rhs : BytecodeRegister)
  | mod (dest lhs rhs : BytecodeRegister)
  | and (dest lhs rhs : BytecodeRegister)
  | or (dest lhs rhs : BytecodeRegister)
  | xor (dest lhs rhs : BytecodeRegister)
  | not (dest src : BytecodeRegister)
  | shl (dest lhs rhs : BytecodeRegister)
  | shr (dest lhs rhs : BytecodeRegister)
  | sar (dest lhs rhs : BytecodeRegister)
  | mov (dest src : BytecodeRegister)
  | loadTupleElement (dest src : BytecodeRegister) (idx : ConstPoolId)
  | loadEnumElement (dest src : BytecodeRegister) (idx : ConstPoolId)
  | loadEnumVariant (dest src : BytecodeRegister) (idx : ConstPoolId)
  | loadStructField (dest obj : BytecodeRegister) (idx : ConstPoolId)
  | loadField (dest obj : BytecodeRegister) (idx : ConstPoolId)
  | storeField (src obj : BytecodeRegister) (idx : ConstPoolId)
  | loadGlobal (dest : BytecodeRegister) (glob : GlobalId)
  | storeGlobal (src : BytecodeRegister) (glob : GlobalId)
  | pushRegister (src : BytecodeRegister)
  | constTrue (dest : BytecodeRegister)
  | constFalse (dest : BytecodeRegister)
  | constUInt8 (dest : BytecodeRegister) (value : UInt8)
  | constChar (dest : BytecodeRegister) (idx : ConstPoolId)
  | constInt32 (dest : BytecodeRegister) (idx : ConstPoolId)
  | constInt64 (dest : BytecodeRegister) (idx : ConstPoolId)
  | constFloat32 (dest : BytecodeRegister) (idx : ConstPoolId)
  | constFloat64 (dest : BytecodeRegister) (idx : ConstPoolId)
  | constString (dest : BytecodeRegister) (idx : ConstPoolId)
  | testIdentity (dest lhs rhs : BytecodeRegister)
  | testEq (dest lhs rhs : BytecodeRegister)
  | testNe (dest lhs rhs : BytecodeRegister)
  | testGt (dest lhs rhs : BytecodeRegister)
  | testGe (dest lhs rhs : BytecodeRegister)
  | testLt (dest lhs rhs : BytecodeRegister)
  | testLe (dest lhs rhs : BytecodeRegister)
  | jumpLoop (offset : BitVec 32)
  | loopStart
  | jump (offset : BitVec 32)
  | jumpConst (idx : ConstPoolId)
  | jumpIfFalse (opnd : BytecodeRegister) (offset : BitVec 32)
  | jumpIfFalseConst (opnd : BytecodeRegister) (idx : ConstPoolId)
  | jumpIfTrue (opnd : BytecodeRegister) (offset : BitVec 32)
  | jumpIfTrueConst (opnd : BytecodeRegister) (idx : ConstPoolId)
  | invokeDirect (dest : BytecodeRegister) (fct : ConstPoolId)
  | invokeVirtual (dest : BytecodeRegister) (fct : ConstPoolId)
  | invokeStatic (dest : BytecodeRegister) (fct : ConstPoolId)
  | invokeGenericStatic (dest : BytecodeRegister) (fct : ConstPoolId)
  | invokeGenericDirect (dest : BytecodeRegister) (fct : ConstPoolId)
  | newObject (dest : BytecodeRegister) (idx : ConstPoolId)
  | newArray (dest : BytecodeRegister) (idx : ConstPoolId) (length : BytecodeRegister)
  | newTuple (dest : BytecodeRegister) (idx : ConstPoolId)
  | newEnum (dest : BytecodeRegister) (idx : ConstPoolId)
  | newStruct (dest : BytecodeRegister) (idx : ConstPoolId)
  | newTraitObject (dest : BytecodeRegister) (idx : ConstPoolId) (src : BytecodeRegister)
  | newLambda (dest : BytecodeRegister) (idx : ConstPoolId)
  | arrayLength (dest arr : BytecodeRegister)
  | loadArray (dest arr idx : BytecodeRegister)
  | storeArray (src arr idx : BytecodeRegister)
  | ret (opnd : BytecodeRegister)
  deriving DecidableEq, Repr

/-! ## Opcodes and tags

The constants of `opcode.dora`. -/

namespace Opc

def bcWide := 0#32
def bcAdd := 1#32
def bcSub := 2#32
def bcNeg := 3#32
def bcMul := 4#32
def bcDiv := 5#32
def bcMod := 6#32
def bcAnd := 7#32
def bcOr := 8#32
def bcXor := 9#32
def bcNot := 10#32
def bcShl := 11#32
def bcShr := 12#32
def bcSar := 13#32
def bcMov := 14#32
def bcLoadField := 19#32
def bcStoreField := 20#32
def bcLoadGlobal := 21#32
def bcStoreGlobal := 22#32
def bcPushRegister := 23#32
def bcConstTrue := 24#32
def bcConstFalse := 25#32
def bcConstUint8 := 26#32
def bcConstChar := 27#32
def bcConstInt32 := 28#32
def bcConstInt64 := 29#32
def bcConstFloat32 := 30#32
def bcConstFloat64 := 31#32
def bcConstString := 32#32
def bcTestEq := 34#32
def bcTestNe := 35#32
def bcTestGt := 36#32
def bcTestGe := 37#32
def bcTestLt := 38#32
def bcTestLe := 39#32
def bcJumpLoop := 40#32
def bcLoopStart := 41#32
def bcJump := 42#32
def bcJumpConst := 43#32
def bcJumpIfFalse := 44#32
def bcJumpIfFalseConst := 45#32
def bcJumpIfTrue := 46#32
def bcJumpIfTrueConst := 47#32
def bcInvokeDirect := 48#32
def bcInvokeVirtual := 49#32
def bcInvokeStatic := 50#32
def bcNewObject := 54#32
def bcNewArray := 56#32
def bcNewLambda := 61#32
def bcArrayLength := 62#32
def bcLoadArray := 63#32
def bcStoreArray := 64#32
def bcRet := 65#32

def bcTypeUnit := 0#32
def bcTypeBool := 1#32
def bcTypeUInt8 := 2#32
def bcTypeChar := 3#32
def bcTypeInt32 := 4#32
def bcTypeInt64 := 5#32
def bcTypeFloat32 := 6#32
def bcTypeFloat64 := 7#32
def bcTypePtr := 8#32
def bcTypeTuple := 9#32
def bcTypeStruct := 11#32
def bcTypeTypeParam := 12#32

def constpoolOpcodeString := 0#32
def constpoolOpcodeFloat32 := 1#32
def constpoolOpcodeFloat64 := 2#32
def constpoolOpcodeInt32 := 3#32
def constpoolOpcodeInt64 := 4#32
def constpoolOpcodeChar := 5#32

def instructionSetX64 := 0#32
def instructionSetArm64 := 1#32

def sourceTypeOpcodeUnit := 2#32
def sourceTypeOpcodeBool := 3#32
def sourceTypeOpcodeChar := 4#32
def sourceTypeOpcodeUInt8 := 5#32
def sourceTypeOpcodeInt32 := 6#32
def sourceTypeOpcodeInt64 := 7#32
def sourceTypeOpcodeFloat32 := 8#32
def sourceTypeOpcodeFloat64 := 9#32
def sourceTypeOpcodeClass := 12#32
def sourceTypeOpcodeStruct := 13#32
def sourceTypeOpcodeTuple := 14#32
def sourceTypeOpcodeTrait := 15#32
def sourceTypeOpcodeTypeParam := 17#32

end Opc

end Dora.Boots
