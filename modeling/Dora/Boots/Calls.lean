import Dora.Boots.Builder
import Dora.Boots.Agreement

/-!
# What the calls of the builder emit

Nothing here says that the values are those the iterator expects behind the opcode.

## Main definitions

* `Call.view`: the opcode with values, or the jump, that a method appends
* `Call.Mismatched`: the calls whose values the iterator takes for others

## Main results

* `BytecodeBuilder.emitVals_eq`: the bytes of an opcode with its values
-/

namespace Dora.Boots

open Bytecode (BytecodeOpcode OperandWidth Forward)
open List UInt8 Opc Bytecode.BytecodeInstruction

/-- What a call appends to the code. -/
inductive View
  /-- Nothing. -/
  | silent
  /-- An opcode with its values, and a byte that is never widened. -/
  | values (opcode : BitVec 32) (vals : List (BitVec 32)) (immediate : List UInt8 := [])
  /-- A forward jump, with a condition or without. -/
  | forward (inst instConst : BitVec 32) (opnd : Option BytecodeRegister) (lbl : BytecodeLabel)
  /-- A backward jump. -/
  | loop (lbl : BytecodeLabel)

/-- The operands in the terms of the virtual machine. -/
def BytecodeRegister.vm (reg : BytecodeRegister) : Bytecode.Register := ⟨reg.value.toNat⟩

def ConstPoolId.vm (idx : ConstPoolId) : Bytecode.ConstPoolIdx := ⟨idx.value.toNat⟩

def ClassDefId.vm (cls : ClassDefId) : Bytecode.ConstPoolIdx := ⟨cls.value.toNat⟩

def GlobalId.vm (glob : GlobalId) : Bytecode.GlobalDefinitionId := ⟨glob.value.toNat⟩

namespace Call

/-- What each method appends. -/
def view : Call → View
  | .emitAdd dest lhs rhs => .values bcAdd [dest.value, lhs.value, rhs.value]
  | .emitSub dest lhs rhs => .values bcSub [dest.value, lhs.value, rhs.value]
  | .emitNeg dest src => .values bcNeg [dest.value, src.value]
  | .emitMul dest lhs rhs => .values bcMul [dest.value, lhs.value, rhs.value]
  | .emitDiv dest lhs rhs => .values bcDiv [dest.value, lhs.value, rhs.value]
  | .emitMod dest lhs rhs => .values bcMod [dest.value, lhs.value, rhs.value]
  | .emitAnd dest lhs rhs => .values bcAnd [dest.value, lhs.value, rhs.value]
  | .emitOr dest lhs rhs => .values bcOr [dest.value, lhs.value, rhs.value]
  | .emitXor dest lhs rhs => .values bcXor [dest.value, lhs.value, rhs.value]
  | .emitNot dest src => .values bcNot [dest.value, src.value]
  | .emitShl dest lhs rhs => .values bcShl [dest.value, lhs.value, rhs.value]
  | .emitShr dest lhs rhs => .values bcShr [dest.value, lhs.value, rhs.value]
  | .emitSar dest lhs rhs => .values bcSar [dest.value, lhs.value, rhs.value]
  | .emitMov dest src => .values bcMov [dest.value, src.value]
  | .emitLoadField dest obj cls field =>
      .values bcLoadField [dest.value, obj.value, cls.value, field.value]
  | .emitStoreField src obj cls field =>
      .values bcStoreField [src.value, obj.value, cls.value, field.value]
  | .emitLoadGlobal dest glob => .values bcLoadGlobal [dest.value, glob.value]
  | .emitStoreGlobal src glob => .values bcStoreGlobal [src.value, glob.value]
  | .emitPushRegister src => .values bcPushRegister [src.value]
  | .emitConstTrue dest => .values bcConstTrue [dest.value]
  | .emitConstFalse dest => .values bcConstFalse [dest.value]
  | .emitConstByte dest value => .values bcConstUint8 [dest.value] [value]
  | .emitConstChar dest idx => .values bcConstChar [dest.value, idx.value]
  | .emitConstInt32 dest idx => .values bcConstInt32 [dest.value, idx.value]
  | .emitConstInt64 dest idx => .values bcConstInt64 [dest.value, idx.value]
  | .emitConstFloat32 dest idx => .values bcConstFloat32 [dest.value, idx.value]
  | .emitConstFloat64 dest idx => .values bcConstFloat64 [dest.value, idx.value]
  | .emitConstString dest idx => .values bcConstString [dest.value, idx.value]
  | .emitTestEq dest lhs rhs => .values bcTestEq [dest.value, lhs.value, rhs.value]
  | .emitTestNe dest lhs rhs => .values bcTestNe [dest.value, lhs.value, rhs.value]
  | .emitTestGt dest lhs rhs => .values bcTestGt [dest.value, lhs.value, rhs.value]
  | .emitTestGe dest lhs rhs => .values bcTestGe [dest.value, lhs.value, rhs.value]
  | .emitTestLt dest lhs rhs => .values bcTestLt [dest.value, lhs.value, rhs.value]
  | .emitTestLe dest lhs rhs => .values bcTestLe [dest.value, lhs.value, rhs.value]
  | .emitLoopStart => .values bcLoopStart []
  | .emitJumpLoop lbl => .loop lbl
  | .emitJumpIfFalse opnd lbl => .forward bcJumpIfFalse bcJumpIfFalseConst (some opnd) lbl
  | .emitJumpIfTrue opnd lbl => .forward bcJumpIfTrue bcJumpIfTrueConst (some opnd) lbl
  | .emitJump lbl => .forward bcJump bcJumpConst none lbl
  | .emitInvokeDirect dest fct start count =>
      .values bcInvokeDirect [dest.value, fct.value, start.value, count]
  | .emitInvokeVirtual dest fct start count =>
      .values bcInvokeVirtual [dest.value, fct.value, start.value, count]
  | .emitInvokeStatic dest fct start count =>
      .values bcInvokeStatic [dest.value, fct.value, start.value, count]
  | .emitNewObject dest cls => .values bcNewObject [dest.value, cls.value]
  | .emitArrayLength dest => .values bcArrayLength [dest.value]
  | .emitLoadArray dest arr idx => .values bcLoadArray [dest.value, arr.value, idx.value]
  | .emitStoreArray src arr idx => .values bcStoreArray [src.value, arr.value, idx.value]
  | .emitRet opnd => .values bcRet [opnd.value]
  | _ => .silent

def emits (c : Call) : Bool :=
  match c.view with
  | .silent => false
  | _ => true

/-- The label a call jumps forward to. -/
def target (c : Call) : Option BytecodeLabel :=
  match c.view with
  | .forward _ _ _ lbl => some lbl
  | _ => none

/-- The operands given to the call are not negative. -/
def NonNegative (c : Call) : Prop :=
  match c.view with
  | .values _ vals _ => ∀ val ∈ vals, 0 ≤ val.toInt
  | .forward _ _ opnd _ => ∀ reg ∈ opnd, 0 ≤ reg.value.toInt
  | _ => True

/-- The methods that append other values than the iterator reads behind their opcode: a class and a
field for the field of the constant pool, a function with its arguments for the function of the
constant pool, and no array for the length of an array. -/
def Mismatched : Call → Prop
  | .emitLoadField .. | .emitStoreField .. | .emitInvokeDirect .. | .emitInvokeVirtual ..
  | .emitInvokeStatic .. | .emitArrayLength .. => True
  | _ => False

instance : DecidablePred Mismatched := fun c => by
  cases c <;> unfold Mismatched <;> infer_instance

/-- The instruction that a method appends, in the terms of the virtual machine. -/
def instruction : Call → Option Bytecode.BytecodeInstruction
  | .emitAdd dest lhs rhs => some (.add dest.vm lhs.vm rhs.vm)
  | .emitSub dest lhs rhs => some (.sub dest.vm lhs.vm rhs.vm)
  | .emitNeg dest src => some (.neg dest.vm src.vm)
  | .emitMul dest lhs rhs => some (.mul dest.vm lhs.vm rhs.vm)
  | .emitDiv dest lhs rhs => some (.div dest.vm lhs.vm rhs.vm)
  | .emitMod dest lhs rhs => some (.mod dest.vm lhs.vm rhs.vm)
  | .emitAnd dest lhs rhs => some (.and dest.vm lhs.vm rhs.vm)
  | .emitOr dest lhs rhs => some (.or dest.vm lhs.vm rhs.vm)
  | .emitXor dest lhs rhs => some (.xor dest.vm lhs.vm rhs.vm)
  | .emitNot dest src => some (.not dest.vm src.vm)
  | .emitShl dest lhs rhs => some (.shl dest.vm lhs.vm rhs.vm)
  | .emitShr dest lhs rhs => some (.shr dest.vm lhs.vm rhs.vm)
  | .emitSar dest lhs rhs => some (.sar dest.vm lhs.vm rhs.vm)
  | .emitMov dest src => some (.mov dest.vm src.vm)
  | .emitLoadGlobal dest glob => some (.loadGlobal dest.vm glob.vm)
  | .emitStoreGlobal src glob => some (.storeGlobal src.vm glob.vm)
  | .emitPushRegister src => some (.pushRegister src.vm)
  | .emitConstTrue dest => some (.constTrue dest.vm)
  | .emitConstFalse dest => some (.constFalse dest.vm)
  | .emitConstByte dest value => some (.constUInt8 dest.vm value)
  | .emitConstChar dest idx => some (.constChar dest.vm idx.vm)
  | .emitConstInt32 dest idx => some (.constInt32 dest.vm idx.vm)
  | .emitConstInt64 dest idx => some (.constInt64 dest.vm idx.vm)
  | .emitConstFloat32 dest idx => some (.constFloat32 dest.vm idx.vm)
  | .emitConstFloat64 dest idx => some (.constFloat64 dest.vm idx.vm)
  | .emitConstString dest idx => some (.constString dest.vm idx.vm)
  | .emitTestEq dest lhs rhs => some (.testEq dest.vm lhs.vm rhs.vm)
  | .emitTestNe dest lhs rhs => some (.testNe dest.vm lhs.vm rhs.vm)
  | .emitTestGt dest lhs rhs => some (.testGt dest.vm lhs.vm rhs.vm)
  | .emitTestGe dest lhs rhs => some (.testGe dest.vm lhs.vm rhs.vm)
  | .emitTestLt dest lhs rhs => some (.testLt dest.vm lhs.vm rhs.vm)
  | .emitTestLe dest lhs rhs => some (.testLe dest.vm lhs.vm rhs.vm)
  | .emitLoopStart => some .loopStart
  | .emitNewObject dest cls => some (.newObject dest.vm cls.vm)
  | .emitLoadArray dest arr idx => some (.loadArray dest.vm arr.vm idx.vm)
  | .emitStoreArray src arr idx => some (.storeArray src.vm arr.vm idx.vm)
  | .emitRet opnd => some (.ret opnd.vm)
  | _ => none

end Call

/-- The opcode of an instruction, for those that have a constant in `opcode.dora`. -/
def BytecodeInstruction.opcode : BytecodeInstruction → Option (BitVec 32)
  | .add .. => some bcAdd
  | .sub .. => some bcSub
  | .neg .. => some bcNeg
  | .mul .. => some bcMul
  | .div .. => some bcDiv
  | .mod .. => some bcMod
  | .and .. => some bcAnd
  | .or .. => some bcOr
  | .xor .. => some bcXor
  | .not .. => some bcNot
  | .shl .. => some bcShl
  | .shr .. => some bcShr
  | .sar .. => some bcSar
  | .mov .. => some bcMov
  | .loadField .. => some bcLoadField
  | .storeField .. => some bcStoreField
  | .loadGlobal .. => some bcLoadGlobal
  | .storeGlobal .. => some bcStoreGlobal
  | .pushRegister .. => some bcPushRegister
  | .constTrue .. => some bcConstTrue
  | .constFalse .. => some bcConstFalse
  | .constUInt8 .. => some bcConstUint8
  | .constChar .. => some bcConstChar
  | .constInt32 .. => some bcConstInt32
  | .constInt64 .. => some bcConstInt64
  | .constFloat32 .. => some bcConstFloat32
  | .constFloat64 .. => some bcConstFloat64
  | .constString .. => some bcConstString
  | .testEq .. => some bcTestEq
  | .testNe .. => some bcTestNe
  | .testGt .. => some bcTestGt
  | .testGe .. => some bcTestGe
  | .testLt .. => some bcTestLt
  | .testLe .. => some bcTestLe
  | .jumpLoop .. => some bcJumpLoop
  | .loopStart => some bcLoopStart
  | .jump .. => some bcJump
  | .jumpConst .. => some bcJumpConst
  | .jumpIfFalse .. => some bcJumpIfFalse
  | .jumpIfFalseConst .. => some bcJumpIfFalseConst
  | .jumpIfTrue .. => some bcJumpIfTrue
  | .jumpIfTrueConst .. => some bcJumpIfTrueConst
  | .invokeDirect .. => some bcInvokeDirect
  | .invokeVirtual .. => some bcInvokeVirtual
  | .invokeStatic .. => some bcInvokeStatic
  | .newObject .. => some bcNewObject
  | .newArray .. => some bcNewArray
  | .newLambda .. => some bcNewLambda
  | .arrayLength .. => some bcArrayLength
  | .loadArray .. => some bcLoadArray
  | .storeArray .. => some bcStoreArray
  | .ret .. => some bcRet
  | _ => none

/-- The byte of a `ConstUInt8`. -/
def BytecodeInstruction.immediate : BytecodeInstruction → List UInt8
  | .constUInt8 _ value => [value]
  | _ => []

/-- An opcode of the virtual machine as the builder has it. -/
def opcodeBits (op : BytecodeOpcode) : BitVec 32 := op.toU8.toBitVec.setWidth 32

theorem opcode_translate {i : Bytecode.BytecodeInstruction} {i' : BytecodeInstruction}
    (h : translate i = some i') :
    i'.opcode = some (opcodeBits i.opcode) ∧ i'.immediate = i.immediate := by
  cases i <;> first | (obtain rfl := Option.some.inj h; exact ⟨rfl, rfl⟩) | cases h

/-- How many operands the instructions have that the builder gets wrong. -/
theorem BytecodeInstruction.length_operands {i : BytecodeInstruction} {opcode : BitVec 32}
    (h : i.opcode = some opcode) :
    (opcode ∈ [bcLoadField, bcStoreField] → i.operands.length = 3) ∧
      (opcode ∈ [bcInvokeDirect, bcInvokeVirtual, bcInvokeStatic, bcArrayLength] →
        i.operands.length = 2) := by
  cases i <;> cases h <;> refine ⟨?_, ?_⟩ <;>
    first | exact fun _ => rfl | exact fun hmem => absurd hmem (by decide)

namespace Call

variable {c : Call}

variable {opcode : BitVec 32} {vals : List (BitVec 32)} {immediate : List UInt8}

/-- A method that is not mismatched appends the opcode and the operands of its instruction. -/
theorem instruction_of_view
    (hv : c.view = .values opcode vals immediate) (hm : ¬c.Mismatched) :
    ∃ i, c.instruction = some i ∧ opcode = opcodeBits i.opcode ∧
      i.operands = vals.map BitVec.toNat ∧ i.immediate = immediate ∧ handles i.opcode := by
  cases c <;> simp only [view, reduceCtorEq] at hv <;>
    first
    | exact absurd trivial hm
    | (obtain ⟨rfl, rfl, rfl⟩ := hv; exact ⟨_, rfl, rfl, rfl, rfl, rfl⟩)

theorem forward_of_view {inst instConst : BitVec 32} {opnd : Option BytecodeRegister}
    {lbl : BytecodeLabel} (hv : c.view = .forward inst instConst opnd lbl) :
    ∃ f : Forward, inst = opcodeBits f.inst ∧ instConst = opcodeBits f.instConst ∧
      f.cond = opnd.map fun reg => ⟨reg.value.toNat⟩ := by
  cases c <;> simp only [view, View.forward.injEq] at hv <;>
    obtain ⟨rfl, rfl, rfl, rfl⟩ := hv
  case emitJumpIfFalse opnd lbl => exact ⟨.ifFalse ⟨opnd.value.toNat⟩, rfl, rfl, rfl⟩
  case emitJumpIfTrue opnd lbl => exact ⟨.ifTrue ⟨opnd.value.toNat⟩, rfl, rfl, rfl⟩
  case emitJump lbl => exact ⟨.jump, rfl, rfl, rfl⟩

/-- No instruction has the opcode of a mismatched method and as many operands. -/
theorem operands_ne_of_mismatched (hv : c.view = .values opcode vals immediate) (hm : c.Mismatched)
    {i : BytecodeInstruction} (hi : i.opcode = some opcode) : i.operands ≠ vals := by
  obtain ⟨hfield, hother⟩ := BytecodeInstruction.length_operands hi
  rintro rfl
  cases c <;> simp only [Mismatched] at hm <;>
    simp only [view, View.values.injEq] at hv <;> obtain ⟨rfl, hvals, -⟩ := hv <;>
    rw [← hvals] at hfield hother
  case emitLoadField => exact absurd (hfield (by decide)) (by simp)
  case emitStoreField => exact absurd (hfield (by decide)) (by simp)
  all_goals exact absurd (hother (by decide)) (by simp)

end Call

/-! ## Numbers -/

variable {val : BitVec 32}

theorem toNat_of_nonneg (h : 0 ≤ val.toInt) : val.toNat < 2 ^ 31 ∧ val.toInt = val.toNat := by
  rw [BitVec.toInt_eq_toNat_cond] at h ⊢
  split_ifs at h ⊢ <;> omega

theorem toInt_of_lt (h : val.toNat < 2 ^ 31) : val.toInt = val.toNat := by
  rw [BitVec.toInt_eq_toNat_cond, if_pos (by omega)]

theorem toNat_toInt32 {size : ℕ} (h : size < 2 ^ 32) : (toInt32 size).toNat = size := by
  rw [toInt32, BitVec.toNat_ofNat, Nat.mod_eq_of_lt h]

theorem toInt_toInt32 {size : ℕ} (h : size < 2 ^ 31) : (toInt32 size).toInt = size := by
  have hnat := toNat_toInt32 (show size < 2 ^ 32 by omega)
  rw [toInt_of_lt (by omega), hnat]

theorem isWide_of_lt (h : val.toNat < 2 ^ 31) : isWide val = decide (255 < val.toNat) := by
  rw [isWide, toInt_of_lt h]
  exact decide_eq_decide.mpr (by omega)

namespace BytecodeBuilder

variable {opcode : BitVec 32} {immediate : List UInt8} {lbl : BytecodeLabel}

/-! ## Bytes -/

/-- Append bytes to the code. -/
def append (b : BytecodeBuilder) (bytes : List UInt8) : BytecodeBuilder :=
  { b with code := b.code ++ bytes }

section

variable (b : BytecodeBuilder) {vals : List (BitVec 32)}
include b

@[simp] theorem append_append (bs cs : List UInt8) :
    (b.append bs).append cs = b.append (bs ++ cs) := by
  simp [append]

theorem append_nil : b.append [] = b := by
  simp [append]

omit b in
theorem ofBitVec_setWidth (val : BitVec 32) :
    UInt8.ofBitVec (val.setWidth 8) = UInt8.ofNat val.toNat := by
  apply UInt8.toNat_inj.mp
  rw [UInt8.toNat_ofBitVec, BitVec.toNat_setWidth, UInt8.toNat_ofNat']

theorem emitByte_eq {val : BitVec 32} (h : val.toNat ≤ 255) :
    b.emitByte val = some (b.append [ofNat val.toNat]) := by
  have hint := toInt_of_lt (show val.toNat < 2 ^ 31 by omega)
  rw [emitByte, if_pos (by omega), ofBitVec_setWidth, append]

omit b in
/-- The bytes of `emitInt32` and `patchInt32`. -/
theorem int32_bytes (val : BitVec 32) :
    [ofNat (val &&& 0xFF).toNat, ofNat ((val >>> 8) &&& 0xFF).toNat,
      ofNat ((val >>> 16) &&& 0xFF).toNat, ofNat ((val >>> 24) &&& 0xFF).toNat] =
      Bytes.ofNatLE 4 val.toNat := by
  rw [← Bytecode.BytecodeWriter.u32_bytes]
  rfl

theorem emitInt32_eq {val : BitVec 32} (h : 0 ≤ val.toInt) :
    b.emitInt32 val = some (b.append (Bytes.ofNatLE 4 val.toNat)) := by
  have hand : ∀ v : BitVec 32, (v &&& 0xFF).toNat ≤ 255 := by
    intro v
    exact Nat.and_le_right
  rw [← int32_bytes]
  simp only [emitInt32, guard, h, if_true, pure, Option.bind_eq_bind, Option.bind_some,
    emitByte_eq _ (hand _), append_append]
  rfl

/-- Opcodes are below 255, so `emitOpcode` never needs its two-byte form. -/
theorem emitOpcode_eq (op : BytecodeOpcode) :
    b.emitOpcode (opcodeBits op) = some (b.append [op.toU8]) := by
  have hlt := op.toU8_lt
  have hnat : (opcodeBits op).toNat = op.toU8.toNat := by
    rw [opcodeBits, BitVec.toNat_setWidth, UInt8.toNat_toBitVec, Nat.mod_eq_of_lt (by omega)]
  have hint := toInt_of_lt (show (opcodeBits op).toNat < 2 ^ 31 by omega)
  rw [emitOpcode, if_neg (by omega), emitByte_eq b (by omega), hnat, UInt8.ofNat_toNat]

theorem emitWide_eq : b.emitWide = some (b.append OperandWidth.wide.marker) :=
  b.emitByte_eq (by decide)

theorem foldlM_emitByte (h : ∀ val ∈ vals, val.toNat ≤ 255) :
    vals.foldlM emitByte b =
      some (b.append ((vals.map BitVec.toNat).flatMap OperandWidth.normal.encode)) := by
  induction vals generalizing b with
  | nil => exact congrArg some b.append_nil.symm
  | cons val vals ih =>
    rw [foldlM_cons, emitByte_eq b (h val mem_cons_self), Option.bind_eq_bind,
      Option.bind_some, ih _ fun v hv => h v (mem_cons_of_mem _ hv), append_append]
    rfl

theorem foldlM_emitInt32 (h : ∀ val ∈ vals, 0 ≤ val.toInt) :
    vals.foldlM emitInt32 b =
      some (b.append ((vals.map BitVec.toNat).flatMap OperandWidth.wide.encode)) := by
  induction vals generalizing b with
  | nil => exact congrArg some b.append_nil.symm
  | cons val vals ih =>
    rw [foldlM_cons, emitInt32_eq b (h val mem_cons_self), Option.bind_eq_bind,
      Option.bind_some, ih _ fun v hv => h v (mem_cons_of_mem _ hv), append_append]
    rfl

omit b in
theorem toNat_widened (byte : UInt8) : (byte.toBitVec.setWidth 32).toNat = byte.toNat := by
  have hlt := byte.toNat_lt
  rw [BitVec.toNat_setWidth, toNat_toBitVec, Nat.mod_eq_of_lt (by omega)]

omit b in
theorem encode_widened (bytes : List UInt8) :
    ((bytes.map fun byte => byte.toBitVec.setWidth 32).map BitVec.toNat).flatMap
      OperandWidth.normal.encode = bytes := by
  induction bytes with
  | nil => rfl
  | cons byte bytes ih =>
    rw [map_cons, map_cons, flatMap_cons, ih, toNat_widened]
    simp [OperandWidth.encode, OperandWidth.size, Bytes.ofNatLE]

/-- **The bytes of an opcode with its values**, for the values of an instruction. -/
theorem emitVals_eq {i : Bytecode.BytecodeInstruction} (hi : i.operands = vals.map BitVec.toNat)
    (h : ∀ val ∈ vals, 0 ≤ val.toInt) :
    b.emitVals (opcodeBits i.opcode) vals =
      some (b.append (i.width.marker ++ i.opcode.toU8 :: i.operands.flatMap i.width.encode)) := by
  have hwide : ∀ val ∈ vals, isWide val = decide (255 < val.toNat) := fun val hval =>
    isWide_of_lt (toNat_of_nonneg (h val hval)).1
  have hany : vals.any isWide = i.operands.any (· > 255) := by
    rw [hi, any_map, Bool.eq_iff_iff, any_eq_true, any_eq_true]
    refine exists_congr fun val => and_congr_right fun hval => ?_
    rw [hwide val hval]
    rfl
  unfold emitVals width
  rw [hany]
  split_ifs with hw
  · simp only [emitWide_eq, emitOpcode_eq, Option.bind_eq_bind, Option.bind_some,
      foldlM_emitInt32 _ h, append_append, hi]
    rfl
  · have hnarrow : ∀ val ∈ vals, val.toNat ≤ 255 := by
      intro val hval
      rw [hi] at hw
      simp only [any_map, any_eq_true, Function.comp_apply, decide_eq_true_eq,
        not_exists, not_and, not_lt] at hw
      exact hw val hval
    simp only [emitOpcode_eq, Option.bind_eq_bind, Option.bind_some, foldlM_emitByte _ hnarrow,
      append_append, hi]
    rfl

end

/-! ## The calls by their views -/

variable (b : BytecodeBuilder) {c : Call}

theorem exec_values {vals : List (BitVec 32)}
    (hv : c.view = .values opcode vals immediate) :
    b.exec c = (b.emitVals opcode vals).bind fun b =>
      (immediate.map fun byte => byte.toBitVec.setWidth 32).foldlM emitByte b := by
  cases c <;> simp only [Call.view] at hv <;>
    obtain ⟨rfl, rfl, rfl⟩ := hv
  case emitConstByte dest value =>
    simp only [map_cons, map_nil, foldlM_cons, foldlM_nil, bind_pure]
    rfl
  all_goals exact (Option.bind_fun_some _).symm

theorem exec_instruction {vals : List (BitVec 32)}
    (hv : c.view = .values opcode vals immediate) {i : Bytecode.BytecodeInstruction}
    (hop : opcode = opcodeBits i.opcode) (hi : i.operands = vals.map BitVec.toNat)
    (himm : i.immediate = immediate) (h : ∀ val ∈ vals, 0 ≤ val.toInt) :
    b.exec c = some (b.append (i.encode i.width)) := by
  rw [exec_values b hv, hop, emitVals_eq b hi h, Option.bind_some, foldlM_emitByte]
  · rw [append_append, encode, encodeOperands_eq, himm, encode_widened]
    simp
  · intro val hval
    obtain ⟨byte, -, rfl⟩ := mem_map.mp hval
    have hlt := byte.toNat_lt
    rw [toNat_widened]
    omega

theorem exec_forward {inst instConst : BitVec 32} {opnd : Option BytecodeRegister}
    (hv : c.view = .forward inst instConst opnd lbl) : b.exec c = (do
      guard ((← b.isBound lbl) = false)
      b.emitJmpForward inst instConst opnd lbl) := by
  cases c <;> simp only [Call.view] at hv <;>
    obtain ⟨rfl, rfl, rfl, rfl⟩ := hv <;> rfl

theorem exec_loop (hv : c.view = .loop lbl) : b.exec c = b.emitJumpLoop lbl := by
  cases c <;> simp only [Call.view, reduceCtorEq, View.loop.injEq] at hv
  subst hv
  rfl

end BytecodeBuilder

end Dora.Boots
