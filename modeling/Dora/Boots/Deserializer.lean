import Dora.Lib.ByteCursor
import Dora.Boots.Data

/-!
# The deserializer

The boots compiler decodes the bytes it is given with a `ByteReader`. An access out of bounds, an
allocation of negative size and an `unreachable` are `none`. The types of the source language are
nested: the functions that decode them take a bound on the depth, so that what the decoder returns
is what it returns for some bound.
-/

namespace Dora.Boots

structure ByteReader where
  array : List UInt8
  idx : ℕ

/-- Functions that move the reader and may fail. -/
abbrev DecodeM := StateT ByteReader Option

namespace ByteReader

/-- `ByteReader::new`. -/
def new (array : List UInt8) : ByteReader := ⟨array, 0⟩

instance : Cursor ByteReader Unit where
  remaining r := r.array.drop r.idx
  advance n r := { r with idx := r.idx + n }
  mode _ := ()
  remaining_advance n r := by simp [Nat.add_comm]
  advance_zero _ := rfl
  advance_advance m n r := by simp [Nat.add_assoc]
  mode_advance _ _ := rfl

def readUInt8 : DecodeM UInt8 := fun r => do
  let value ← r.array[r.idx]?
  some (value, { r with idx := r.idx + 1 })

def readInt32 : DecodeM (BitVec 32) := do
  let by1 := (← readUInt8).toBitVec.setWidth 32
  let by2 := (← readUInt8).toBitVec.setWidth 32
  let by3 := (← readUInt8).toBitVec.setWidth 32
  let by4 := (← readUInt8).toBitVec.setWidth 32
  pure ((by4 <<< 24) ||| (by3 <<< 16) ||| (by2 <<< 8) ||| by1)

def readId : DecodeM (BitVec 32) := readInt32

def readInt64 : DecodeM (BitVec 64) := do
  let by1 := (← readUInt8).toBitVec.setWidth 64
  let by2 := (← readUInt8).toBitVec.setWidth 64
  let by3 := (← readUInt8).toBitVec.setWidth 64
  let by4 := (← readUInt8).toBitVec.setWidth 64
  let by5 := (← readUInt8).toBitVec.setWidth 64
  let by6 := (← readUInt8).toBitVec.setWidth 64
  let by7 := (← readUInt8).toBitVec.setWidth 64
  let by8 := (← readUInt8).toBitVec.setWidth 64
  pure ((by8 <<< 56) ||| (by7 <<< 48) ||| (by6 <<< 40) ||| (by5 <<< 32) ||| (by4 <<< 24) |||
    (by3 <<< 16) ||| (by2 <<< 8) ||| by1)

/-- The array that a loop over an array of `size` elements fills. An array of negative size is not
allocated. -/
def readArray {α : Type} (read : DecodeM α) (size : BitVec 32) : DecodeM (List α) := do
  guard (0 ≤ size.toInt)
  readMany read size.toNat

def readByteArray : DecodeM (List UInt8) := do
  let len ← readInt32
  readArray readUInt8 len

/-- `String::fromBytesPart`: the bytes from `offset` on, at most `len` of them, if they are the
UTF-8 encoding of a string. A negative `len` is a large number without its sign. -/
def fromBytesPart (val : List UInt8) (offset : ℕ) (len : ℤ) : Option String :=
  if val.length < offset then none
  else
    let slice := val.drop offset
    String.fromUTF8? ⟨(if len < 0 then slice else slice.take len.toNat).toArray⟩

def readStringContent (length : ℤ) : DecodeM String := fun r => do
  let value ← fromBytesPart r.array r.idx length
  -- at a negative index every later access is out of bounds, and the architecture is still to come
  if (r.idx : ℤ) + length < 0 then none
  else some (value, { r with idx := ((r.idx : ℤ) + length).toNat })

end ByteReader

open ByteReader Opc

/-- `decodeSourceTypeArray`, over the function that decodes an element. -/
def decodeArrayOf {α : Type} (decode : DecodeM α) : DecodeM (List α) := do
  let size ← readInt32
  readArray decode size

/-- `decodeSourceType`, down to the given depth. -/
def decodeSourceType : ℕ → DecodeM SourceType
  | 0 => failure
  | depth + 1 => do
    let opcode := (← readUInt8).toBitVec.setWidth 32
    if opcode = sourceTypeOpcodeUnit then pure .unit
    else if opcode = sourceTypeOpcodeBool then pure .bool
    else if opcode = sourceTypeOpcodeChar then pure .char
    else if opcode = sourceTypeOpcodeUInt8 then pure .uint8
    else if opcode = sourceTypeOpcodeInt32 then pure .int32
    else if opcode = sourceTypeOpcodeInt64 then pure .int64
    else if opcode = sourceTypeOpcodeFloat32 then pure .float32
    else if opcode = sourceTypeOpcodeFloat64 then pure .float64
    else if opcode = sourceTypeOpcodeClass then
      return .class (← readId) (← decodeArrayOf (decodeSourceType depth))
    else if opcode = sourceTypeOpcodeStruct then
      return .struct (← readId) (← decodeArrayOf (decodeSourceType depth))
    else if opcode = sourceTypeOpcodeTrait then
      return .trait (← readId) (← decodeArrayOf (decodeSourceType depth))
    else if opcode = sourceTypeOpcodeTuple then
      return .tuple (← decodeArrayOf (decodeSourceType depth))
    else if opcode = sourceTypeOpcodeTypeParam then return .typeParam (← readId)
    else failure

variable (depth : ℕ)

def decodeSourceTypeArray : DecodeM (List SourceType) :=
  decodeArrayOf (decodeSourceType depth)

def decodeBytecodeType : DecodeM BytecodeType := do
  let opcode := (← readUInt8).toBitVec.setWidth 32
  if opcode = bcTypeUnit then pure .unit
  else if opcode = bcTypeBool then pure .bool
  else if opcode = bcTypeUInt8 then pure .uint8
  else if opcode = bcTypeChar then pure .char
  else if opcode = bcTypeInt32 then pure .int32
  else if opcode = bcTypeInt64 then pure .int64
  else if opcode = bcTypeFloat32 then pure .float32
  else if opcode = bcTypeFloat64 then pure .float64
  else if opcode = bcTypePtr then pure .ptr
  else if opcode = bcTypeStruct then
    return .struct (← readId) (← decodeSourceTypeArray depth)
  else if opcode = bcTypeTuple then
    return .tuple (← decodeSourceTypeArray depth)
  else if opcode = bcTypeTypeParam then return .typeParam (← readId)
  else failure

def decodeConstPoolEntry : DecodeM ConstPoolEntry := do
  let opcode := (← readUInt8).toBitVec.setWidth 32
  if opcode = constpoolOpcodeInt32 then return .int32 (← readInt32)
  else if opcode = constpoolOpcodeInt64 then return .int64 (← readInt64)
  else if opcode = constpoolOpcodeFloat32 then return .float32 (← readInt32)
  else if opcode = constpoolOpcodeFloat64 then return .float64 (← readInt64)
  else if opcode = constpoolOpcodeChar then return .char (← readInt32)
  else if opcode = constpoolOpcodeString then do
    let length := (← readInt32).toInt
    return .string (← readStringContent length)
  else failure

def decodeArchitecture : DecodeM Architecture := do
  let value := (← readUInt8).toBitVec.setWidth 32
  if value = instructionSetX64 then pure .x64
  else if value = instructionSetArm64 then pure .arm64
  else failure

def decodeBytecodeArray : DecodeM (List UInt8) := readByteArray

def decodeConstPool : DecodeM (List ConstPoolEntry) := decodeArrayOf decodeConstPoolEntry

def decodeRegisters : DecodeM (List BytecodeType) :=
  decodeArrayOf (decodeBytecodeType depth)

def decodeTypeParams : DecodeM (List SourceType) := decodeSourceTypeArray depth

def decodeBytecodeFunction : DecodeM BytecodeFunction := do
  let code ← decodeBytecodeArray
  let constPool ← decodeConstPool
  let registers ← decodeRegisters depth
  let arguments ← readInt32
  pure ⟨code, constPool, registers, arguments⟩

def decodeCompilationInfo : DecodeM CompilationInfo := do
  let bc ← decodeBytecodeFunction depth
  let typeParams ← decodeTypeParams depth
  let arch ← decodeArchitecture
  pure ⟨bc, typeParams, arch⟩

end Dora.Boots
