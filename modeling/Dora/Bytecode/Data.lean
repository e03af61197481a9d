import Mathlib.Algebra.Group.Nat.Defs
import Mathlib.Data.List.Basic

/-!
# Bytecode data

The opcodes and instructions of the bytecode, the operands they carry, the types of registers and
the entries of the constant pool. An instruction is an opcode with its operands: those read with
the operand width of the instruction and, for `ConstUInt8`, one byte that is never widened.
-/

namespace Dora.Bytecode

/-- The cast `as u32`. -/
def asU32 (n : ℕ) : ℕ := n % 2 ^ 32

theorem asU32_of_lt {n : ℕ} (h : n < 2 ^ 32) : asU32 n = n := Nat.mod_eq_of_lt h

theorem guard_bind_eq_some {α : Type} {p : Prop} [Decidable p] {x : Unit → Option α} {a : α} :
    (guard p >>= x) = some a ↔ p ∧ x () = some a := by
  by_cases hp : p <;> simp [guard, hp]

/-- `fits_u8` of the writer. -/
def fitsU8 (value : ℕ) : Bool := value ≤ 255

structure Register where
  toUsize : ℕ
  deriving DecidableEq, Repr

structure ConstPoolIdx where
  toUsize : ℕ
  deriving DecidableEq, Repr

structure GlobalDefinitionId where
  toUsize : ℕ
  deriving DecidableEq, Repr

/-- A label of the writer: an index into its table of label offsets. -/
structure Label where
  toUsize : ℕ
  deriving DecidableEq, Repr

structure Position where
  line : ℕ
  column : ℕ
  deriving DecidableEq, Repr

/-! ## Opcodes -/

/-- The opcodes, in the order of the enumeration: the byte of an opcode is its place. -/
inductive BytecodeOpcode
  | wide | add | sub | neg | mul | div | mod | and | or | xor | not | shl | shr | sar | mov
  | loadTupleElement | loadEnumElement | loadEnumVariant | loadStructField | loadField
  | storeField | loadGlobal | storeGlobal | pushRegister | constTrue | constFalse | constUInt8
  | constChar | constInt32 | constInt64 | constFloat32 | constFloat64 | constString
  | testIdentity | testEq | testNe | testGt | testGe | testLt | testLe | jumpLoop | loopStart
  | jump | jumpConst | jumpIfFalse | jumpIfFalseConst | jumpIfTrue | jumpIfTrueConst
  | invokeDirect | invokeVirtual | invokeStatic | invokeLambda | invokeGenericStatic
  | invokeGenericDirect | newObject | newObjectInitialized | newArray | newTuple | newEnum
  | newStruct | newTraitObject | newLambda | arrayLength | loadArray | storeArray | ret
  deriving DecidableEq, Repr

namespace BytecodeOpcode

/-- The byte of an opcode. -/
def toU8 (op : BytecodeOpcode) : UInt8 := UInt8.ofNat op.ctorIdx

/-- The opcodes in the order of their bytes. -/
def all : List BytecodeOpcode :=
  [wide, add, sub, neg, mul, div, mod, and, or, xor, not, shl, shr, sar, mov,
   loadTupleElement, loadEnumElement, loadEnumVariant, loadStructField, loadField, storeField,
   loadGlobal, storeGlobal, pushRegister, constTrue, constFalse, constUInt8, constChar,
   constInt32, constInt64, constFloat32, constFloat64, constString, testIdentity, testEq,
   testNe, testGt, testGe, testLt, testLe, jumpLoop, loopStart, jump, jumpConst, jumpIfFalse,
   jumpIfFalseConst, jumpIfTrue, jumpIfTrueConst, invokeDirect, invokeVirtual, invokeStatic,
   invokeLambda, invokeGenericStatic, invokeGenericDirect, newObject, newObjectInitialized,
   newArray, newTuple, newEnum, newStruct, newTraitObject, newLambda, arrayLength, loadArray,
   storeArray, ret]

/-- The opcode of a byte. -/
def fromU8 (value : UInt8) : Option BytecodeOpcode := all[value.toNat]?

@[simp] theorem fromU8_toU8 (op : BytecodeOpcode) : fromU8 op.toU8 = some op := by
  cases op <;> rfl

theorem toU8_of_fromU8 {value : UInt8} {op : BytecodeOpcode} (h : fromU8 value = some op) :
    op.toU8 = value := by
  have hall : ∀ i : Fin all.length, (all.get i).toU8 = UInt8.ofNat i := by decide
  obtain ⟨hlt, rfl⟩ := List.getElem?_eq_some_iff.mp h
  exact (hall ⟨value.toNat, hlt⟩).trans UInt8.ofNat_toNat

theorem toU8_injective : Function.Injective toU8 := by
  intro op op' h
  have hs : some op = some op' := by rw [← fromU8_toU8 op, h, fromU8_toU8]
  exact Option.some.inj hs

theorem toU8_lt (op : BytecodeOpcode) : op.toU8.toNat < 66 := by
  cases op <;> decide

/-- Whether the writer records a position for the instruction. -/
def needsPosition : BytecodeOpcode → Bool
  | div | mod | loadField | storeField | invokeDirect | invokeVirtual | invokeStatic
  | invokeLambda | invokeGenericStatic | invokeGenericDirect | newObject | newObjectInitialized
  | newArray | newEnum | newTuple | newStruct | newTraitObject | newLambda | arrayLength
  | loadArray | storeArray | loadEnumElement | loadEnumVariant | add | sub | mul => true
  | _ => false

end BytecodeOpcode

/-! ## Instructions -/

/-- The instructions, with the operands they carry. -/
inductive BytecodeInstruction
  | add (dest lhs rhs : Register)
  | sub (dest lhs rhs : Register)
  | neg (dest src : Register)
  | mul (dest lhs rhs : Register)
  | div (dest lhs rhs : Register)
  | mod (dest lhs rhs : Register)
  | and (dest lhs rhs : Register)
  | or (dest lhs rhs : Register)
  | xor (dest lhs rhs : Register)
  | not (dest src : Register)
  | shl (dest lhs rhs : Register)
  | shr (dest lhs rhs : Register)
  | sar (dest lhs rhs : Register)
  | mov (dest src : Register)
  | loadTupleElement (dest src : Register) (idx : ConstPoolIdx)
  | loadEnumElement (dest src : Register) (idx : ConstPoolIdx)
  | loadEnumVariant (dest src : Register) (idx : ConstPoolIdx)
  | loadStructField (dest obj : Register) (field : ConstPoolIdx)
  | loadField (dest obj : Register) (field : ConstPoolIdx)
  | storeField (src obj : Register) (field : ConstPoolIdx)
  | loadGlobal (dest : Register) (globalId : GlobalDefinitionId)
  | storeGlobal (src : Register) (globalId : GlobalDefinitionId)
  | pushRegister (src : Register)
  | constTrue (dest : Register)
  | constFalse (dest : Register)
  | constUInt8 (dest : Register) (value : UInt8)
  | constChar (dest : Register) (idx : ConstPoolIdx)
  | constInt32 (dest : Register) (idx : ConstPoolIdx)
  | constInt64 (dest : Register) (idx : ConstPoolIdx)
  | constFloat32 (dest : Register) (idx : ConstPoolIdx)
  | constFloat64 (dest : Register) (idx : ConstPoolIdx)
  | constString (dest : Register) (idx : ConstPoolIdx)
  | testIdentity (dest lhs rhs : Register)
  | testEq (dest lhs rhs : Register)
  | testNe (dest lhs rhs : Register)
  | testGt (dest lhs rhs : Register)
  | testGe (dest lhs rhs : Register)
  | testLt (dest lhs rhs : Register)
  | testLe (dest lhs rhs : Register)
  | jumpLoop (offset : ℕ)
  | loopStart
  | jump (offset : ℕ)
  | jumpConst (idx : ConstPoolIdx)
  | jumpIfFalse (opnd : Register) (offset : ℕ)
  | jumpIfFalseConst (opnd : Register) (idx : ConstPoolIdx)
  | jumpIfTrue (opnd : Register) (offset : ℕ)
  | jumpIfTrueConst (opnd : Register) (idx : ConstPoolIdx)
  | invokeDirect (dest : Register) (fct : ConstPoolIdx)
  | invokeVirtual (dest : Register) (fct : ConstPoolIdx)
  | invokeStatic (dest : Register) (fct : ConstPoolIdx)
  | invokeLambda (dest : Register) (idx : ConstPoolIdx)
  | invokeGenericStatic (dest : Register) (fct : ConstPoolIdx)
  | invokeGenericDirect (dest : Register) (fct : ConstPoolIdx)
  | newObject (dest : Register) (cls : ConstPoolIdx)
  | newObjectInitialized (dest : Register) (cls : ConstPoolIdx)
  | newArray (dest : Register) (cls : ConstPoolIdx) (length : Register)
  | newTuple (dest : Register) (idx : ConstPoolIdx)
  | newEnum (dest : Register) (idx : ConstPoolIdx)
  | newStruct (dest : Register) (idx : ConstPoolIdx)
  | newTraitObject (dest : Register) (idx : ConstPoolIdx) (src : Register)
  | newLambda (dest : Register) (idx : ConstPoolIdx)
  | arrayLength (dest arr : Register)
  | loadArray (dest arr idx : Register)
  | storeArray (src arr idx : Register)
  | ret (opnd : Register)
  deriving DecidableEq, Repr

namespace BytecodeInstruction

def opcode : BytecodeInstruction → BytecodeOpcode
  | .add .. => .add
  | .sub .. => .sub
  | .neg .. => .neg
  | .mul .. => .mul
  | .div .. => .div
  | .mod .. => .mod
  | .and .. => .and
  | .or .. => .or
  | .xor .. => .xor
  | .not .. => .not
  | .shl .. => .shl
  | .shr .. => .shr
  | .sar .. => .sar
  | .mov .. => .mov
  | .loadTupleElement .. => .loadTupleElement
  | .loadEnumElement .. => .loadEnumElement
  | .loadEnumVariant .. => .loadEnumVariant
  | .loadStructField .. => .loadStructField
  | .loadField .. => .loadField
  | .storeField .. => .storeField
  | .loadGlobal .. => .loadGlobal
  | .storeGlobal .. => .storeGlobal
  | .pushRegister .. => .pushRegister
  | .constTrue .. => .constTrue
  | .constFalse .. => .constFalse
  | .constUInt8 .. => .constUInt8
  | .constChar .. => .constChar
  | .constInt32 .. => .constInt32
  | .constInt64 .. => .constInt64
  | .constFloat32 .. => .constFloat32
  | .constFloat64 .. => .constFloat64
  | .constString .. => .constString
  | .testIdentity .. => .testIdentity
  | .testEq .. => .testEq
  | .testNe .. => .testNe
  | .testGt .. => .testGt
  | .testGe .. => .testGe
  | .testLt .. => .testLt
  | .testLe .. => .testLe
  | .jumpLoop .. => .jumpLoop
  | .loopStart => .loopStart
  | .jump .. => .jump
  | .jumpConst .. => .jumpConst
  | .jumpIfFalse .. => .jumpIfFalse
  | .jumpIfFalseConst .. => .jumpIfFalseConst
  | .jumpIfTrue .. => .jumpIfTrue
  | .jumpIfTrueConst .. => .jumpIfTrueConst
  | .invokeDirect .. => .invokeDirect
  | .invokeVirtual .. => .invokeVirtual
  | .invokeStatic .. => .invokeStatic
  | .invokeLambda .. => .invokeLambda
  | .invokeGenericStatic .. => .invokeGenericStatic
  | .invokeGenericDirect .. => .invokeGenericDirect
  | .newObject .. => .newObject
  | .newObjectInitialized .. => .newObjectInitialized
  | .newArray .. => .newArray
  | .newTuple .. => .newTuple
  | .newEnum .. => .newEnum
  | .newStruct .. => .newStruct
  | .newTraitObject .. => .newTraitObject
  | .newLambda .. => .newLambda
  | .arrayLength .. => .arrayLength
  | .loadArray .. => .loadArray
  | .storeArray .. => .storeArray
  | .ret .. => .ret

/-- The operands that take the operand width of the instruction, in their order in the code. -/
def operands : BytecodeInstruction → List ℕ
  | .add dest lhs rhs | .sub dest lhs rhs | .mul dest lhs rhs | .div dest lhs rhs
  | .mod dest lhs rhs | .and dest lhs rhs | .or dest lhs rhs | .xor dest lhs rhs
  | .shl dest lhs rhs | .shr dest lhs rhs | .sar dest lhs rhs | .testIdentity dest lhs rhs
  | .testEq dest lhs rhs | .testNe dest lhs rhs | .testGt dest lhs rhs | .testGe dest lhs rhs
  | .testLt dest lhs rhs | .testLe dest lhs rhs => [dest.toUsize, lhs.toUsize, rhs.toUsize]
  | .neg dest src | .not dest src | .mov dest src => [dest.toUsize, src.toUsize]
  | .loadTupleElement dest src idx | .loadEnumElement dest src idx
  | .loadEnumVariant dest src idx =>
    [dest.toUsize, src.toUsize, idx.toUsize]
  | .loadStructField dest obj field | .loadField dest obj field =>
    [dest.toUsize, obj.toUsize, field.toUsize]
  | .storeField src obj field => [src.toUsize, obj.toUsize, field.toUsize]
  | .loadGlobal dest globalId => [dest.toUsize, globalId.toUsize]
  | .storeGlobal src globalId => [src.toUsize, globalId.toUsize]
  | .pushRegister src => [src.toUsize]
  | .constTrue dest | .constFalse dest | .constUInt8 dest _ => [dest.toUsize]
  | .constChar dest idx | .constInt32 dest idx | .constInt64 dest idx | .constFloat32 dest idx
  | .constFloat64 dest idx | .constString dest idx | .invokeLambda dest idx | .newTuple dest idx
  | .newEnum dest idx | .newStruct dest idx | .newLambda dest idx => [dest.toUsize, idx.toUsize]
  | .jumpLoop offset | .jump offset => [offset]
  | .loopStart => []
  | .jumpConst idx => [idx.toUsize]
  | .jumpIfFalse opnd offset | .jumpIfTrue opnd offset => [opnd.toUsize, offset]
  | .jumpIfFalseConst opnd idx | .jumpIfTrueConst opnd idx => [opnd.toUsize, idx.toUsize]
  | .invokeDirect dest fct | .invokeVirtual dest fct | .invokeStatic dest fct
  | .invokeGenericStatic dest fct | .invokeGenericDirect dest fct => [dest.toUsize, fct.toUsize]
  | .newObject dest cls | .newObjectInitialized dest cls => [dest.toUsize, cls.toUsize]
  | .newArray dest cls length => [dest.toUsize, cls.toUsize, length.toUsize]
  | .newTraitObject dest idx src => [dest.toUsize, idx.toUsize, src.toUsize]
  | .arrayLength dest arr => [dest.toUsize, arr.toUsize]
  | .loadArray dest arr idx => [dest.toUsize, arr.toUsize, idx.toUsize]
  | .storeArray src arr idx => [src.toUsize, arr.toUsize, idx.toUsize]
  | .ret opnd => [opnd.toUsize]

/-- The operand that is one byte in both widths. -/
def immediate : BytecodeInstruction → List UInt8
  | .constUInt8 _ value => [value]
  | _ => []

theorem opcode_ne_wide (i : BytecodeInstruction) : i.opcode ≠ .wide := by
  cases i <;> simp [opcode]

end BytecodeInstruction

inductive OperandWidth
  | normal | wide
  deriving DecidableEq, Repr

namespace OperandWidth

/-- The bytes of an operand. -/
def size : OperandWidth → ℕ
  | normal => 1
  | wide => 4

end OperandWidth

/-! ## Types and constants -/

/-- The types of the source language. An array of types is a list: its two representations
in memory differ in nothing that is read. -/
inductive SourceType
  | error | any | unit | bool | char | uint8 | int32 | int64 | float32 | float64 | ptr | this
  | class (clsId : ℕ) (params : List SourceType)
  | struct (structId : ℕ) (params : List SourceType)
  | tuple (subtypes : List SourceType)
  | trait (traitId : ℕ) (params : List SourceType)
  | typeParam (typeParamId : ℕ)
  | lambda (params : List SourceType) (ret : SourceType)
  | enum (enumId : ℕ) (params : List SourceType)

/-- The types of registers. -/
inductive BytecodeType
  | unit | bool | uint8 | char | int32 | int64 | float32 | float64 | ptr
  | tuple (subtypes : List SourceType)
  | typeParam (typeParamId : ℕ)
  | enum (enumId : ℕ) (params : List SourceType)
  | struct (structId : ℕ) (params : List SourceType)
  | class (clsId : ℕ) (params : List SourceType)
  | trait (traitId : ℕ) (params : List SourceType)
  | lambda (params : List SourceType) (ret : SourceType)

/-- The entries of the constant pool. Integers and floating-point numbers are their bits. -/
inductive ConstPoolEntry
  | string (value : String)
  | float32 (value : BitVec 32)
  | float64 (value : BitVec 64)
  | int32 (value : BitVec 32)
  | int64 (value : BitVec 64)
  | char (value : Char)
  | class (clsId : ℕ) (params : List SourceType)
  | field (clsId : ℕ) (params : List SourceType) (fieldId : ℕ)
  | fieldFixed (clsInstanceId fieldId : ℕ)
  | fct (fctId : ℕ) (params : List SourceType)
  | generic (typeParamId fctId : ℕ) (params : List SourceType)
  | enum (enumId : ℕ) (params : List SourceType)
  | enumVariant (enumId : ℕ) (params : List SourceType) (variantIdx : ℕ)
  | enumElement (enumId : ℕ) (params : List SourceType) (variantIdx elementIdx : ℕ)
  | struct (structId : ℕ) (params : List SourceType)
  | structField (structId : ℕ) (params : List SourceType) (fieldId : ℕ)
  | trait (traitId : ℕ) (params : List SourceType) (objectTy : SourceType)
  | tupleElement (tupleTy : SourceType) (elementIdx : ℕ)
  | tuple (subtypes : List SourceType)
  | lambda (params : List SourceType) (ret : SourceType)

/-- A generated function. -/
structure BytecodeFunction where
  code : List UInt8
  constPool : List ConstPoolEntry
  registers : List BytecodeType
  arguments : ℕ
  positions : List (ℕ × Position)
  params : List BytecodeType
  returnType : Option BytecodeType

end Dora.Bytecode
