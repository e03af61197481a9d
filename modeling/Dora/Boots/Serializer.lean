import Dora.Lib.ByteCursor
import Dora.Bytecode.Data

/-!
# The serializer

The virtual machine hands a function to the boots compiler as a sequence of bytes. An `assert!`,
an `unreachable!` and an `unimplemented!` of the encoder are `none`.
-/

namespace Dora.Boots

open Bytecode (asU32)

/-! ## Tags -/

/-- The tags of the types of registers, in the order of the enumeration. -/
inductive BytecodeTypeKind
  | unit | bool | uint8 | char | int32 | int64 | float32 | float64 | ptr | tuple | enum | struct
  | typeParam | «class» | trait | lambda

/-- The tags of the constants, in the order of the enumeration. -/
inductive ConstPoolOpcode
  | string | float32 | float64 | int32 | int64 | char | fct | «class» | enum | enumVariant
  | enumElement | struct | structField | trait | field | fieldFixed | generic | tupleElement
  | tuple | lambda

/-- The tags of the types of the source language, in the order of the enumeration. -/
inductive SourceTypeOpcode
  | error | any | unit | bool | char | uint8 | int32 | int64 | float32 | float64 | ptr
  | this | «class» | struct | tuple | trait | module | typeParam | lambda | enum

inductive InstructionSet
  | x64 | arm64
  deriving DecidableEq

def BytecodeTypeKind.toU8 (kind : BytecodeTypeKind) : UInt8 := UInt8.ofNat kind.ctorIdx

def ConstPoolOpcode.toU8 (opcode : ConstPoolOpcode) : UInt8 := UInt8.ofNat opcode.ctorIdx

def SourceTypeOpcode.toU8 (opcode : SourceTypeOpcode) : UInt8 := UInt8.ofNat opcode.ctorIdx

def InstructionSet.toU8 (set : InstructionSet) : UInt8 := UInt8.ofNat set.ctorIdx

/-! ## The buffer -/

abbrev ByteBuffer := List UInt8

/-- Functions that write into the buffer. -/
abbrev EncodeM := StateT ByteBuffer Option Unit

namespace ByteBuffer

def emitU8 (data : UInt8) : EncodeM := modify (· ++ [data])

def emitU32 (data : ℕ) : EncodeM := modify (· ++ Bytes.ofNatLE 4 data)

def emitId (data : ℕ) : EncodeM := do
  guard (data ≤ 2 ^ 31 - 1)
  emitU32 (asU32 data)

def emitU64 (data : ℕ) : EncodeM := modify (· ++ Bytes.ofNatLE 8 data)

end ByteBuffer

open ByteBuffer ConstPoolOpcode

/-! ## Types -/

mutual

/-- `encode_source_type`, with the calls of `encode_source_type_array` written out. -/
def encodeSourceType : Bytecode.SourceType → EncodeM
  | .error | .any | .ptr | .this => failure
  | .unit => emitU8 SourceTypeOpcode.unit.toU8
  | .bool => emitU8 SourceTypeOpcode.bool.toU8
  | .char => emitU8 SourceTypeOpcode.char.toU8
  | .uint8 => emitU8 SourceTypeOpcode.uint8.toU8
  | .int32 => emitU8 SourceTypeOpcode.int32.toU8
  | .int64 => emitU8 SourceTypeOpcode.int64.toU8
  | .float32 => emitU8 SourceTypeOpcode.float32.toU8
  | .float64 => emitU8 SourceTypeOpcode.float64.toU8
  | .class clsId params => do
    emitU8 SourceTypeOpcode.class.toU8
    emitId clsId
    emitU32 (asU32 params.length)
    encodeSourceTypes params
  | .struct structId params => do
    emitU8 SourceTypeOpcode.struct.toU8
    emitId structId
    emitU32 (asU32 params.length)
    encodeSourceTypes params
  | .trait traitId params => do
    emitU8 SourceTypeOpcode.trait.toU8
    emitId traitId
    emitU32 (asU32 params.length)
    encodeSourceTypes params
  | .enum enumId params => do
    emitU8 SourceTypeOpcode.enum.toU8
    emitId enumId
    emitU32 (asU32 params.length)
    encodeSourceTypes params
  | .tuple subtypes => do
    emitU8 SourceTypeOpcode.tuple.toU8
    emitU32 (asU32 subtypes.length)
    encodeSourceTypes subtypes
  | .typeParam typeParamId => do
    emitU8 SourceTypeOpcode.typeParam.toU8
    emitId typeParamId
  | .lambda _ _ => failure

/-- The loop over an array of types. -/
def encodeSourceTypes : List Bytecode.SourceType → EncodeM
  | [] => pure ()
  | ty :: tys => do
    encodeSourceType ty
    encodeSourceTypes tys

end

def encodeSourceTypeArray (sta : List Bytecode.SourceType) : EncodeM := do
  emitU32 (asU32 sta.length)
  encodeSourceTypes sta

def encodeBytecodeType : Bytecode.BytecodeType → EncodeM
  | .unit => emitU8 BytecodeTypeKind.unit.toU8
  | .bool => emitU8 BytecodeTypeKind.bool.toU8
  | .char => emitU8 BytecodeTypeKind.char.toU8
  | .uint8 => emitU8 BytecodeTypeKind.uint8.toU8
  | .int32 => emitU8 BytecodeTypeKind.int32.toU8
  | .int64 => emitU8 BytecodeTypeKind.int64.toU8
  | .float32 => emitU8 BytecodeTypeKind.float32.toU8
  | .float64 => emitU8 BytecodeTypeKind.float64.toU8
  | .ptr => emitU8 BytecodeTypeKind.ptr.toU8
  | .tuple subtypes => do
    emitU8 BytecodeTypeKind.tuple.toU8
    encodeSourceTypeArray subtypes
  | .typeParam typeParamId => do
    emitU8 BytecodeTypeKind.typeParam.toU8
    emitId typeParamId
  | .enum enumId params => do
    emitU8 BytecodeTypeKind.enum.toU8
    emitId enumId
    encodeSourceTypeArray params
  | .struct structId params => do
    emitU8 BytecodeTypeKind.struct.toU8
    emitId structId
    encodeSourceTypeArray params
  | .class clsId params => do
    emitU8 BytecodeTypeKind.class.toU8
    emitId clsId
    encodeSourceTypeArray params
  | .trait traitId params => do
    emitU8 BytecodeTypeKind.trait.toU8
    emitId traitId
    encodeSourceTypeArray params
  | .lambda params ret => do
    emitU8 BytecodeTypeKind.lambda.toU8
    encodeSourceTypeArray params
    encodeSourceType ret

/-- The subtypes of a tuple; other types have none. -/
def tupleSubtypes : Bytecode.SourceType → Option (List Bytecode.SourceType)
  | .tuple subtypes => some subtypes
  | _ => none

/-! ## Constants -/

def encodeConstpoolEntry : Bytecode.ConstPoolEntry → EncodeM
  | .string value => do
    -- the source writes the tag of a `Float32` before a string and before a `Float64`
    emitU8 float32.toU8
    emitU32 (asU32 value.utf8ByteSize)
    value.toUTF8.toList.forM emitU8
  | .float32 value => do
    emitU8 float32.toU8
    emitU32 value.toNat
  | .float64 value => do
    emitU8 float32.toU8
    emitU64 value.toNat
  | .int32 value => do
    emitU8 int32.toU8
    emitU32 value.toNat
  | .int64 value => do
    emitU8 int64.toU8
    emitU64 value.toNat
  | .char value => do
    emitU8 char.toU8
    emitU32 value.toNat
  | .fct fctId params => do
    emitU8 fct.toU8
    emitId fctId
    encodeSourceTypeArray params
  | .generic tpId fctId params => do
    emitU8 generic.toU8
    emitId tpId
    emitId fctId
    encodeSourceTypeArray params
  | .class clsId params => do
    emitU8 class.toU8
    emitId clsId
    encodeSourceTypeArray params
  | .field clsId params fieldId => do
    emitU8 field.toU8
    emitId clsId
    encodeSourceTypeArray params
    emitId fieldId
  | .fieldFixed clsDefId fieldId => do
    emitU8 fieldFixed.toU8
    emitId clsDefId
    emitId fieldId
  | .enum enumId params => do
    emitU8 enum.toU8
    emitId enumId
    encodeSourceTypeArray params
  | .enumVariant enumId params variantIdx => do
    emitU8 enumVariant.toU8
    emitId enumId
    encodeSourceTypeArray params
    emitId variantIdx
  | .enumElement enumId params variantIdx elementIdx => do
    emitU8 enumElement.toU8
    emitId enumId
    encodeSourceTypeArray params
    emitId variantIdx
    emitId elementIdx
  | .struct structId params => do
    emitU8 struct.toU8
    emitId structId
    encodeSourceTypeArray params
  | .structField structId params fieldId => do
    emitU8 structField.toU8
    emitId structId
    encodeSourceTypeArray params
    emitId fieldId
  | .trait traitId params objectTy => do
    emitU8 trait.toU8
    emitId traitId
    encodeSourceTypeArray params
    encodeSourceType objectTy
  | .tupleElement tupleTy elementIdx => do
    emitU8 tupleElement.toU8
    encodeSourceTypeArray (← StateT.lift (tupleSubtypes tupleTy))
    emitId elementIdx
  | .tuple subtypes => do
    emitU8 tuple.toU8
    encodeSourceTypeArray subtypes
  | .lambda params ret => do
    emitU8 lambda.toU8
    encodeSourceTypeArray params
    encodeSourceType ret

/-! ## Functions -/

variable (fct : Bytecode.BytecodeFunction)

def encodeBytecodeArray : EncodeM := do
  emitU32 (asU32 fct.code.length)
  fct.code.forM emitU8

def encodeConstpoolArray : EncodeM := do
  emitU32 (asU32 fct.constPool.length)
  fct.constPool.forM encodeConstpoolEntry

def encodeRegistersArray : EncodeM := do
  emitU32 (asU32 fct.registers.length)
  fct.registers.forM encodeBytecodeType

def encodeBytecodeFunction : EncodeM := do
  encodeBytecodeArray fct
  encodeConstpoolArray fct
  encodeRegistersArray fct
  emitU32 fct.arguments

def encodeTypeParams (typeParams : List Bytecode.SourceType) : EncodeM :=
  encodeSourceTypeArray typeParams

def encodeArchitecture (architecture : InstructionSet) : EncodeM := emitU8 architecture.toU8

def encodeCompilationInfo (typeParams : List Bytecode.SourceType) (architecture : InstructionSet) :
    EncodeM := do
  encodeBytecodeFunction fct
  encodeTypeParams typeParams
  encodeArchitecture architecture

/-- The bytes handed to the boots compiler. -/
def encodedCompilationInfo (typeParams : List Bytecode.SourceType) (architecture : InstructionSet) :
    Option ByteBuffer :=
  (encodeCompilationInfo fct typeParams architecture []).map Prod.snd

end Dora.Boots
