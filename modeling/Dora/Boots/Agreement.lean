import Dora.Boots.Iterator
import Dora.Bytecode.Jumps

/-!
# The two bytecode readers

The reader of the virtual machine and the iterator of the boots compiler decode the same code with
opcodes and operand lists of their own.

## Main definitions

* `translate`: an instruction of the reader in the terms of the iterator, if it knows it
* `SameInstruction`: both have decoded the same instruction

## Main results

* `readInstruction_follows`: the iterator reads the translation of each instruction
* `decodeBytecode_agrees`: both readers agree on code with known opcodes
-/

namespace Dora.Boots

open Bytecode (BytecodeReader BytecodeOpcode OperandWidth)
open List BitVec Opc

variable {r' : BytecodeReader} {last : ℕ} {visits : List (ℕ × Bytecode.BytecodeInstruction)}

attribute [local simp] BytecodeReader.readByte BytecodeIterator.readByte BytecodeIterator.readOpcode
  BytecodeReader.readOpcode BytecodeReader.setWidth

/-! ## Instructions -/

def register (reg : Bytecode.Register) : BytecodeRegister := ⟨BitVec.ofNat 32 reg.toUsize⟩

def constPoolId (idx : Bytecode.ConstPoolIdx) : ConstPoolId := ⟨BitVec.ofNat 32 idx.toUsize⟩

def globalId (glob : Bytecode.GlobalDefinitionId) : GlobalId := ⟨BitVec.ofNat 32 glob.toUsize⟩

/-- The same instruction, if the iterator knows it. -/
def translate : Bytecode.BytecodeInstruction → Option BytecodeInstruction
  | .add dest lhs rhs => some (.add (register dest) (register lhs) (register rhs))
  | .sub dest lhs rhs => some (.sub (register dest) (register lhs) (register rhs))
  | .neg dest src => some (.neg (register dest) (register src))
  | .mul dest lhs rhs => some (.mul (register dest) (register lhs) (register rhs))
  | .div dest lhs rhs => some (.div (register dest) (register lhs) (register rhs))
  | .mod dest lhs rhs => some (.mod (register dest) (register lhs) (register rhs))
  | .and dest lhs rhs => some (.and (register dest) (register lhs) (register rhs))
  | .or dest lhs rhs => some (.or (register dest) (register lhs) (register rhs))
  | .xor dest lhs rhs => some (.xor (register dest) (register lhs) (register rhs))
  | .not dest src => some (.not (register dest) (register src))
  | .shl dest lhs rhs => some (.shl (register dest) (register lhs) (register rhs))
  | .shr dest lhs rhs => some (.shr (register dest) (register lhs) (register rhs))
  | .sar dest lhs rhs => some (.sar (register dest) (register lhs) (register rhs))
  | .mov dest src => some (.mov (register dest) (register src))
  | .loadField dest obj idx => some (.loadField (register dest) (register obj) (constPoolId idx))
  | .storeField src obj idx => some (.storeField (register src) (register obj) (constPoolId idx))
  | .loadGlobal dest glob => some (.loadGlobal (register dest) (globalId glob))
  | .storeGlobal src glob => some (.storeGlobal (register src) (globalId glob))
  | .pushRegister src => some (.pushRegister (register src))
  | .constTrue dest => some (.constTrue (register dest))
  | .constFalse dest => some (.constFalse (register dest))
  | .constUInt8 dest value => some (.constUInt8 (register dest) value)
  | .constChar dest idx => some (.constChar (register dest) (constPoolId idx))
  | .constInt32 dest idx => some (.constInt32 (register dest) (constPoolId idx))
  | .constInt64 dest idx => some (.constInt64 (register dest) (constPoolId idx))
  | .constFloat32 dest idx => some (.constFloat32 (register dest) (constPoolId idx))
  | .constFloat64 dest idx => some (.constFloat64 (register dest) (constPoolId idx))
  | .constString dest idx => some (.constString (register dest) (constPoolId idx))
  | .testEq dest lhs rhs => some (.testEq (register dest) (register lhs) (register rhs))
  | .testNe dest lhs rhs => some (.testNe (register dest) (register lhs) (register rhs))
  | .testGt dest lhs rhs => some (.testGt (register dest) (register lhs) (register rhs))
  | .testGe dest lhs rhs => some (.testGe (register dest) (register lhs) (register rhs))
  | .testLt dest lhs rhs => some (.testLt (register dest) (register lhs) (register rhs))
  | .testLe dest lhs rhs => some (.testLe (register dest) (register lhs) (register rhs))
  | .loopStart => some .loopStart
  | .jumpLoop offset => some (.jumpLoop (BitVec.ofNat 32 offset))
  | .jumpIfFalse opnd offset => some (.jumpIfFalse (register opnd) (BitVec.ofNat 32 offset))
  | .jumpIfFalseConst opnd idx => some (.jumpIfFalseConst (register opnd) (constPoolId idx))
  | .jumpIfTrue opnd offset => some (.jumpIfTrue (register opnd) (BitVec.ofNat 32 offset))
  | .jumpIfTrueConst opnd idx => some (.jumpIfTrueConst (register opnd) (constPoolId idx))
  | .jump offset => some (.jump (BitVec.ofNat 32 offset))
  | .jumpConst idx => some (.jumpConst (constPoolId idx))
  | .invokeDirect dest fct => some (.invokeDirect (register dest) (constPoolId fct))
  | .invokeVirtual dest fct => some (.invokeVirtual (register dest) (constPoolId fct))
  | .invokeStatic dest fct => some (.invokeStatic (register dest) (constPoolId fct))
  | .newObject dest idx => some (.newObject (register dest) (constPoolId idx))
  | .newArray dest idx length =>
    some (.newArray (register dest) (constPoolId idx) (register length))
  | .newLambda dest idx => some (.newLambda (register dest) (constPoolId idx))
  | .arrayLength dest arr => some (.arrayLength (register dest) (register arr))
  | .loadArray dest arr idx => some (.loadArray (register dest) (register arr) (register idx))
  | .storeArray src arr idx => some (.storeArray (register src) (register arr) (register idx))
  | .ret opnd => some (.ret (register opnd))
  | _ => none

/-- The opcodes that the iterator knows. -/
def handles : BytecodeOpcode → Bool
  | .wide | .loadTupleElement | .loadEnumElement | .loadEnumVariant | .loadStructField
  | .testIdentity | .invokeLambda | .invokeGenericStatic | .invokeGenericDirect
  | .newObjectInitialized | .newTuple | .newEnum | .newStruct | .newTraitObject => false
  | _ => true

/-- The operands of an instruction, except the byte of a `ConstUInt8`. -/
def BytecodeInstruction.operands : BytecodeInstruction → List (BitVec 32)
  | .add dest lhs rhs | .sub dest lhs rhs | .mul dest lhs rhs | .div dest lhs rhs
  | .mod dest lhs rhs | .and dest lhs rhs | .or dest lhs rhs | .xor dest lhs rhs
  | .shl dest lhs rhs | .shr dest lhs rhs | .sar dest lhs rhs | .testIdentity dest lhs rhs
  | .testEq dest lhs rhs | .testNe dest lhs rhs | .testGt dest lhs rhs | .testGe dest lhs rhs
  | .testLt dest lhs rhs | .testLe dest lhs rhs => [dest.value, lhs.value, rhs.value]
  | .neg dest src | .not dest src | .mov dest src => [dest.value, src.value]
  | .loadTupleElement dest src idx | .loadEnumElement dest src idx
  | .loadEnumVariant dest src idx =>
    [dest.value, src.value, idx.value]
  | .loadStructField dest obj idx | .loadField dest obj idx => [dest.value, obj.value, idx.value]
  | .storeField src obj idx => [src.value, obj.value, idx.value]
  | .loadGlobal dest glob => [dest.value, glob.value]
  | .storeGlobal src glob => [src.value, glob.value]
  | .pushRegister src => [src.value]
  | .constTrue dest | .constFalse dest | .constUInt8 dest _ => [dest.value]
  | .constChar dest idx | .constInt32 dest idx | .constInt64 dest idx | .constFloat32 dest idx
  | .constFloat64 dest idx | .constString dest idx | .newObject dest idx | .newTuple dest idx
  | .newEnum dest idx | .newStruct dest idx | .newLambda dest idx => [dest.value, idx.value]
  | .jumpLoop offset | .jump offset => [offset]
  | .loopStart => []
  | .jumpConst idx => [idx.value]
  | .jumpIfFalse opnd offset | .jumpIfTrue opnd offset => [opnd.value, offset]
  | .jumpIfFalseConst opnd idx | .jumpIfTrueConst opnd idx => [opnd.value, idx.value]
  | .invokeDirect dest fct | .invokeVirtual dest fct | .invokeStatic dest fct
  | .invokeGenericStatic dest fct | .invokeGenericDirect dest fct => [dest.value, fct.value]
  | .newArray dest idx length => [dest.value, idx.value, length.value]
  | .newTraitObject dest idx src => [dest.value, idx.value, src.value]
  | .arrayLength dest arr => [dest.value, arr.value]
  | .loadArray dest arr idx => [dest.value, arr.value, idx.value]
  | .storeArray src arr idx => [src.value, arr.value, idx.value]
  | .ret opnd => [opnd.value]

variable {i : Bytecode.BytecodeInstruction}

theorem translate_of_handles (h : handles i.opcode) : ∃ i', translate i = some i' := by
  cases i <;> first | exact ⟨_, rfl⟩ | cases h

/-- A translated instruction has the same operands, as far as they fit into an `Int32`. -/
theorem operands_translate {i' : BytecodeInstruction} (h : translate i = some i') :
    i'.operands = i.operands.map (BitVec.ofNat 32) := by
  cases i <;> first | (obtain rfl := Option.some.inj h; rfl) | cases h

/-! ## Operands in lockstep -/

/-- The iterator at the position of the reader. -/
def iterator (r : BytecodeReader) : BytecodeIterator := ⟨r.code, r.offset, r.code.length⟩

/-- The reader stands within the code and reads operands of the given width. -/
def Within (code : List UInt8) (w : OperandWidth) (r : BytecodeReader) : Prop :=
  r.code = code ∧ r.width = w ∧ r.offset ≤ code.length

/-- The width as the iterator passes it along. -/
def wideFlag : OperandWidth → Bool
  | .normal => false
  | .wide => true

section

variable {code : List UInt8} {w : OperandWidth}

theorem follows_readByte : Follows iterator (Within code w) BytecodeIterator.readByte
    BytecodeReader.readByte fun b => some (b.toBitVec.setWidth 32) := by
  rintro r ⟨rfl, hw, hle⟩
  cases hb : r.code[r.offset]? with
  | none => simp [iterator, hb]
  | some b =>
    refine ⟨by simp [iterator, hb], ?_⟩
    intro p hp
    obtain rfl : (b, { r with offset := r.offset + 1 }) = p := by
      simpa [hb] using hp
    obtain ⟨hlt, -⟩ := List.getElem?_eq_some_iff.mp hb
    exact ⟨rfl, hw, hlt⟩

/-- Four bytes put together as a number and as an `Int32`. -/
theorem ofNat_bytes (v1 v2 v3 v4 : UInt8) :
    BitVec.ofNat 32 ((v4.toNat <<< 24) ||| ((v3.toNat <<< 16) ||| ((v2.toNat <<< 8) ||| v1.toNat)))
      = (v4.toBitVec.setWidth 32 <<< 24) ||| (v3.toBitVec.setWidth 32 <<< 16) |||
        (v2.toBitVec.setWidth 32 <<< 8) ||| v1.toBitVec.setWidth 32 := by
  apply eq_of_toNat_eq
  simp only [toNat_ofNat, toNat_or, toNat_shiftLeft, toNat_setWidth,
    Nat.or_mod_two_pow, Nat.or_assoc, UInt8.toNat_toBitVec]
  have h1 := v1.toNat_lt
  have h2 := v2.toNat_lt
  have h3 := v3.toNat_lt
  have h4 := v4.toNat_lt
  rw [Nat.mod_eq_of_lt (by omega : v4.toNat < 2 ^ 32),
    Nat.mod_eq_of_lt (by omega : v3.toNat < 2 ^ 32),
    Nat.mod_eq_of_lt (by omega : v2.toNat < 2 ^ 32)]

theorem follows_readInt32 : Follows iterator (Within code w) BytecodeIterator.readInt32
    BytecodeReader.readWide fun n => some (BitVec.ofNat 32 n) := by
  refine follows_readByte.bind fun v1 => follows_readByte.bind fun v2 =>
    follows_readByte.bind fun v3 => follows_readByte.bind fun v4 => .pure ?_
  rw [ofNat_bytes]

theorem follows_readIndex : Follows iterator (Within code w)
    (BytecodeIterator.readIndex (wideFlag w))
    BytecodeReader.readIndex fun n => some (BitVec.ofNat 32 n) := by
  -- the reader looks its width up, which the iterator was told
  have hwidth : Follows iterator (Within code w) (BytecodeIterator.readIndex (wideFlag w))
      (match w with
        | .normal => return (← BytecodeReader.readByte).toNat
        | .wide => BytecodeReader.readWide) fun n => some (BitVec.ofNat 32 n) := by
    cases w with
    | normal =>
      rw [← bind_pure (BytecodeIterator.readIndex _)]
      refine follows_readByte.bind fun b => .pure ?_
      exact congrArg some (eq_of_toNat_eq (by simp))
    | wide => exact follows_readInt32
  rintro r ⟨rfl, rfl, hle⟩
  exact hwidth r ⟨rfl, rfl, hle⟩

theorem follows_readRegister : Follows iterator (Within code w)
    (BytecodeIterator.readRegister (wideFlag w)) BytecodeReader.readRegister
    fun reg => some (register reg) :=
  follows_readIndex.bind fun _ => .pure rfl

theorem follows_readGlobalId : Follows iterator (Within code w)
    (BytecodeIterator.readGlobalId (wideFlag w)) BytecodeReader.readGlobal
    fun glob => some (globalId glob) :=
  follows_readIndex.bind fun _ => .pure rfl

theorem follows_readConstPoolId : Follows iterator (Within code w)
    (BytecodeIterator.readConstPoolId (wideFlag w)) BytecodeReader.readConstPoolIdx
    fun idx => some (constPoolId idx) :=
  follows_readIndex.bind fun _ => .pure rfl

theorem follows_readOffset : Follows iterator (Within code w)
    (BytecodeIterator.readOffset (wideFlag w)) BytecodeReader.readOffset
    fun n => some (BitVec.ofNat 32 n) :=
  follows_readIndex

/-- **The arms of the two readers agree**: for every opcode the iterator reads the same operands in
the same order, unless it does not know the opcode. -/
theorem follows_readOperands (op : BytecodeOpcode) : Follows iterator (Within code w)
    (BytecodeIterator.readOperands (wideFlag w) (op.toU8.toBitVec.setWidth 32))
    (BytecodeReader.readOperands op) translate := by
  cases op
  case wide => exact .fail
  case constUInt8 =>
    refine follows_readRegister.bind fun dest => follows_readByte.bind fun value => .pure ?_
    simp [translate]
  all_goals
    repeat first
      | refine follows_readRegister.bind fun _ => ?_
      | refine follows_readConstPoolId.bind fun _ => ?_
      | refine follows_readGlobalId.bind fun _ => ?_
      | refine follows_readOffset.bind fun _ => ?_
      | exact Follows.pure rfl
      | refine follows_readRegister.fail_bind fun _ => ?_
      | refine follows_readConstPoolId.fail_bind fun _ => ?_
      | exact Follows.fail_pure rfl

theorem readOperands_of_illegal {b : UInt8} (h : BytecodeOpcode.fromU8 b = none) (wide : Bool) :
    BytecodeIterator.readOperands wide (b.toBitVec.setWidth 32) = failure := by
  have hb : 66 ≤ b.toNat := getElem?_eq_none_iff.mp h
  have hne : ∀ v : BitVec 32, v.toNat < 66 → b.toBitVec.setWidth 32 ≠ v := by
    rintro v hv rfl
    have hlt := b.toNat_lt
    rw [toNat_setWidth, UInt8.toNat_toBitVec, Nat.mod_eq_of_lt (by omega)] at hv
    omega
  rw [BytecodeIterator.readOperands]
  repeat rw [if_neg (hne _ (by decide))]

end

/-! ## Instructions in lockstep -/

/-- What the reader does behind the opcode. -/
@[simp]
def readBehind (start : ℕ) (b : UInt8) :
    Bytecode.ReadM (ℕ × OperandWidth × BytecodeOpcode × Bytecode.BytecodeInstruction) := do
  let opcode ← StateT.lift (BytecodeOpcode.fromU8 b)
  let inst ← BytecodeReader.readOperands opcode
  return (start, (← get).width, opcode, inst)

/-- What the iterator does behind the opcode. -/
@[simp]
def iterBehind (start : ℕ) (wide : Bool) (opcode : BitVec 32) : IterM BytecodeInstructionInfo := do
  let inst ← BytecodeIterator.readOperands wide opcode
  let size := (← get).pos - start
  pure ⟨start, opcode, size, inst⟩

variable {r : BytecodeReader} {it : BytecodeIterator} {b : UInt8} {fuel : ℕ}

theorem readInstruction_of_byte (hb : r.code[r.offset]? = some b)
    (hne : b ≠ BytecodeOpcode.wide.toU8) : BytecodeReader.readInstruction r =
      readBehind r.offset b { r with offset := r.offset + 1, width := .normal } := by
  simp [BytecodeReader.readInstruction, hb, hne]

theorem readInstruction_of_wide (hw : r.code[r.offset]? = some BytecodeOpcode.wide.toU8)
    (hb : r.code[r.offset + 1]? = some b) : BytecodeReader.readInstruction r =
      readBehind r.offset b { r with offset := r.offset + 2, width := .wide } := by
  simp [BytecodeReader.readInstruction, hw, hb]

theorem iterator_readInstruction_of_byte (hb : it.data[it.pos]? = some b)
    (hne : b ≠ BytecodeOpcode.wide.toU8) :
    BytecodeIterator.readInstruction it =
      iterBehind it.pos false (b.toBitVec.setWidth 32) { it with pos := it.pos + 1 } := by
  have hne' : b.toBitVec.setWidth 32 ≠ bcWide := by
    intro h
    refine hne (UInt8.toNat_inj.mp ?_)
    have hlt := b.toNat_lt
    have hv := congrArg BitVec.toNat h
    rw [toNat_setWidth, UInt8.toNat_toBitVec, Nat.mod_eq_of_lt (by omega)] at hv
    exact hv
  simp [BytecodeIterator.readInstruction, hb, hne']

theorem iterator_readInstruction_of_wide (hw : it.data[it.pos]? = some BytecodeOpcode.wide.toU8)
    (hb : it.data[it.pos + 1]? = some b) : BytecodeIterator.readInstruction it =
      iterBehind it.pos true (b.toBitVec.setWidth 32) { it with pos := it.pos + 2 } := by
  have hwide : BytecodeOpcode.wide.toU8.toBitVec.setWidth 32 = bcWide := rfl
  simp [BytecodeIterator.readInstruction, hw, hb, hwide]

theorem opcode_of_readOperands {op : BytecodeOpcode}
    (h : BytecodeReader.readOperands op r = some (i, r')) :
    i.opcode = op := by
  cases op
  case wide => cases h
  all_goals
    repeat obtain ⟨_, _, -, h⟩ := bind_eq_some.mp h
    obtain ⟨rfl, -⟩ := pure_eq_some.mp h
    rfl

/-- What the iterator decodes where the reader visits an instruction. -/
def decoded (span : ℕ × ℕ × Bytecode.BytecodeInstruction) : Option BytecodeInstructionInfo :=
  (translate span.2.2).map fun i =>
    ⟨span.1, span.2.2.opcode.toU8.toBitVec.setWidth 32, span.2.1, i⟩

/-- What the iterator returns for an instruction that the reader returns. -/
def follow (start : ℕ)
    (p : (ℕ × OperandWidth × BytecodeOpcode × Bytecode.BytecodeInstruction) × BytecodeReader) :
    Option (BytecodeInstructionInfo × BytecodeIterator) :=
  (decoded (start, p.2.offset - start, p.1.2.2.2)).map fun info => (info, iterator p.2)

theorem behind_follows {code : List UInt8} {w : OperandWidth} (hr : Within code w r) (start : ℕ)
    (b : UInt8) :
    iterBehind start (wideFlag w) (b.toBitVec.setWidth 32) (iterator r) =
        (readBehind start b r).bind (follow start) ∧
      ∀ p, readBehind start b r = some p → p.2.code = code ∧ p.2.offset ≤ code.length := by
  cases hop : BytecodeOpcode.fromU8 b with
  | none =>
    rw [iterBehind, readOperands_of_illegal hop, readBehind, hop]
    exact ⟨rfl, by simp⟩
  | some op =>
    obtain rfl := BytecodeOpcode.toU8_of_fromU8 hop
    have hrd : readBehind start op.toU8 r = (BytecodeReader.readOperands op r).map
        fun p => ((start, p.2.width, op, p.1), p.2) := by
      cases h : BytecodeReader.readOperands op r <;>
        simp [h]
    have hit : iterBehind start (wideFlag w) (op.toU8.toBitVec.setWidth 32) (iterator r) =
        (BytecodeIterator.readOperands (wideFlag w) (op.toU8.toBitVec.setWidth 32)
          (iterator r)).map fun p =>
            (⟨start, op.toU8.toBitVec.setWidth 32, p.2.pos - start, p.1⟩, p.2) := by
      cases h : BytecodeIterator.readOperands (wideFlag w) (op.toU8.toBitVec.setWidth 32)
          (iterator r) <;>
        simp [h]
    obtain ⟨hrun, hkeep⟩ := follows_readOperands op r hr
    rw [hrd, hit, hrun]
    cases hinst : BytecodeReader.readOperands op r with
    | none => exact ⟨rfl, by simp⟩
    | some p =>
      obtain ⟨hcode, -, hle⟩ := hkeep p hinst
      refine ⟨?_, ?_⟩
      · simp [follow, decoded, iterator, opcode_of_readOperands hinst, Function.comp_def]
      · rintro q hq
        cases hq
        exact ⟨hcode, hle⟩

/-- **The two readers agree on an instruction**: the iterator reads the translation of the
instruction the reader reads, and the reader stays within the code. -/
theorem readInstruction_follows (r : BytecodeReader) :
    BytecodeIterator.readInstruction (iterator r) =
        (BytecodeReader.readInstruction r).bind (follow r.offset) ∧
      ∀ p, BytecodeReader.readInstruction r = some p →
        p.2.code = r.code ∧ p.2.offset ≤ r.code.length := by
  cases hb : r.code[r.offset]? with
  | none =>
    have hrd : BytecodeReader.readInstruction r = none := by
      simp [BytecodeReader.readInstruction, hb,]
    have hit : BytecodeIterator.readInstruction (iterator r) = none := by
      simp [BytecodeIterator.readInstruction, iterator, hb]
    rw [hrd, hit]
    exact ⟨rfl, by simp⟩
  | some b =>
    by_cases hw : b = BytecodeOpcode.wide.toU8
    · subst hw
      cases hb' : r.code[r.offset + 1]? with
      | none =>
        have hrd : BytecodeReader.readInstruction r = none := by
          simp [BytecodeReader.readInstruction, hb, hb']
        have hit : BytecodeIterator.readInstruction (iterator r) = none := by
          have hwide : BytecodeOpcode.wide.toU8.toBitVec.setWidth 32 = bcWide := rfl
          simp [BytecodeIterator.readInstruction, iterator, hb, hb', hwide]
        rw [hrd, hit]
        exact ⟨rfl, by simp⟩
      | some b' =>
        have hlt := (List.getElem?_eq_some_iff.mp hb').1
        rw [readInstruction_of_wide hb hb', iterator_readInstruction_of_wide hb hb']
        exact behind_follows (r := { r with offset := r.offset + 2, width := .wide })
          ⟨rfl, rfl, hlt⟩ r.offset b'
    · have hlt := (List.getElem?_eq_some_iff.mp hb).1
      rw [readInstruction_of_byte hb hw, iterator_readInstruction_of_byte hb hw]
      exact behind_follows
        (r := { r with offset := r.offset + 1, width := .normal }) ⟨rfl, rfl, hlt⟩ r.offset b

/-! ## The whole code -/

/-- Where the next instruction starts. -/
def nextStart (stop : ℕ) : List (ℕ × Bytecode.BytecodeInstruction) → ℕ
  | [] => stop
  | visit :: _ => visit.1

/-- The visited instructions with their sizes: each one reaches to the next one, and the last one
to the end of the code. -/
def spans (stop : ℕ) : List (ℕ × Bytecode.BytecodeInstruction) →
    List (ℕ × ℕ × Bytecode.BytecodeInstruction)
  | [] => []
  | visit :: visits => (visit.1, nextStart stop visits - visit.1, visit.2) :: spans stop visits

theorem readLoop_succ (h : r.offset < r.code.length) :
    BytecodeReader.readLoop (fuel + 1) last r = (BytecodeReader.readInstruction r).bind fun p =>
      (BytecodeReader.readLoop fuel p.2.offset p.2).map fun q =>
        ((last, p.1.2.2.2) :: q.1, q.2) := by
  cases hi : BytecodeReader.readInstruction r <;>
    simp [BytecodeReader.readLoop, BytecodeReader.next, h, hi]

theorem readLoop_end (h : r.offset = r.code.length) :
    BytecodeReader.readLoop (fuel + 1) last r = some ([], r) := by
  simp [BytecodeReader.readLoop, BytecodeReader.next, h, guard]

theorem decodeLoop_succ (h : it.pos < it.length) :
    BytecodeIterator.decodeLoop (fuel + 1) it = (BytecodeIterator.readInstruction it).bind fun p =>
      (BytecodeIterator.decodeLoop fuel p.2).map fun q => (p.1 :: q.1, q.2) := by
  cases hi : BytecodeIterator.readInstruction it <;>
    simp [BytecodeIterator.decodeLoop, BytecodeIterator.next, h, hi]

theorem decodeLoop_end (h : it.pos = it.length) :
    BytecodeIterator.decodeLoop (fuel + 1) it = some ([], it) := by
  simp [BytecodeIterator.decodeLoop, BytecodeIterator.next, h]

theorem nextStart_readLoop (hr : r.offset ≤ r.code.length)
    (h : BytecodeReader.readLoop fuel r.offset r = some (visits, r')) :
    nextStart r.code.length visits = r.offset := by
  cases fuel with
  | zero => cases h
  | succ fuel =>
    rcases Nat.lt_or_eq_of_le hr with hlt | hend
    · rw [readLoop_succ hlt] at h
      obtain ⟨p, -, h⟩ := Option.bind_eq_some_iff.mp h
      obtain ⟨q, -, h⟩ := Option.map_eq_some_iff.mp h
      obtain ⟨rfl, -⟩ := Prod.mk.inj h
      rfl
    · rw [readLoop_end hend] at h
      cases h
      exact hend.symm

/-- **The loops of the two readers agree.** -/
theorem decodeLoop_follows (fuel : ℕ) (hr : r.offset ≤ r.code.length) :
    (BytecodeIterator.decodeLoop fuel (iterator r)).map Prod.fst =
      (BytecodeReader.readLoop fuel r.offset r).bind fun p =>
        (spans r.code.length p.1).mapM decoded := by
  induction fuel generalizing r with
  | zero => rfl
  | succ fuel ih =>
    rcases Nat.lt_or_eq_of_le hr with hlt | hend
    · obtain ⟨hrun, hkeep⟩ := readInstruction_follows r
      have hlt' : (iterator r).pos < (iterator r).length := hlt
      rw [decodeLoop_succ hlt', readLoop_succ hlt, hrun]
      cases hinst : BytecodeReader.readInstruction r with
      | none => rfl
      | some p =>
        obtain ⟨hcode, hle⟩ := hkeep p hinst
        have ih' := ih (hcode ▸ hle)
        rw [hcode] at ih'
        cases hrest : BytecodeReader.readLoop fuel p.2.offset p.2 with
        | none =>
          -- the reader fails further on, and so does the iterator
          rw [hrest, Option.bind_none, Option.map_eq_none_iff] at ih'
          cases hd : decoded (r.offset, p.2.offset - r.offset, p.1.2.2.2) <;>
            simp [follow, hrest, ih']
        | some q =>
          have hnext := nextStart_readLoop (hcode ▸ hle) hrest
          rw [hcode] at hnext
          rw [hrest, Option.bind_some] at ih'
          cases hd : decoded (r.offset, p.2.offset - r.offset, p.1.2.2.2) with
          | none => simp [follow, hd, hrest, spans, hnext]
          | some info =>
            simp only [Option.bind_some, follow, hd, Option.map_some, hrest, spans, hnext,
              mapM_cons, ← ih']
            cases BytecodeIterator.decodeLoop fuel (iterator p.2) <;> rfl
    · have hend' : (iterator r).pos = (iterator r).length := hend
      rw [decodeLoop_end hend', readLoop_end hend]
      rfl

/-- **What the iterator decodes**: the translation of what the reader visits. The iterator fails
where the reader fails, and where it does not know an instruction. -/
theorem decodeBytecode_eq (code : List UInt8) :
    decodeBytecode code =
      (BytecodeReader.read code).bind fun p => (spans code.length p.1).mapM decoded :=
  decodeLoop_follows (code.length + 1) (r := .new code) (Nat.zero_le _)

/-- The iterator has decoded the instruction the reader has visited: the same constructor with the
same operands, as numbers, at the same offset and of the same size. -/
structure SameInstruction (span : ℕ × ℕ × Bytecode.BytecodeInstruction)
    (info : BytecodeInstructionInfo) : Prop where
  start : info.start = span.1
  size : info.size = span.2.1
  opcode : info.opcode = span.2.2.opcode.toU8.toBitVec.setWidth 32
  inst : translate span.2.2 = some info.inst
  operands : info.inst.operands.map BitVec.toInt = span.2.2.operands.map Int.ofNat

theorem sameInstruction_decoded {span : ℕ × ℕ × Bytecode.BytecodeInstruction}
    (hhandles : handles span.2.2.opcode) (hsmall : ∀ n ∈ span.2.2.operands, n < 2 ^ 31) :
    ∃ info, decoded span = some info ∧ SameInstruction span info := by
  obtain ⟨i, hi⟩ := translate_of_handles hhandles
  refine ⟨_, by rw [decoded, hi]; rfl, rfl, rfl, rfl, hi, ?_⟩
  rw [operands_translate hi, map_map]
  refine map_congr_left fun n hn => ?_
  have hlt := hsmall n hn
  rw [Function.comp_apply, toInt_eq_toNat_cond, toNat_ofNat,
    Nat.mod_eq_of_lt (by omega), if_pos (by omega)]
  rfl

theorem forall₂_decoded {stop : ℕ}
    (h : ∀ visit ∈ visits, handles visit.2.opcode ∧ ∀ n ∈ visit.2.operands, n < 2 ^ 31) :
    ∃ infos, (spans stop visits).mapM decoded = some infos ∧
      List.Forall₂ SameInstruction (spans stop visits) infos := by
  induction visits with
  | nil => exact ⟨[], rfl, .nil⟩
  | cons visit visits ih =>
    obtain ⟨infos, hdec, hsame⟩ := ih fun v hv => h v (mem_cons_of_mem _ hv)
    obtain ⟨hhandles, hsmall⟩ := h visit mem_cons_self
    have hspan : ∃ info, decoded (visit.1, nextStart stop visits - visit.1, visit.2) = some info ∧
        SameInstruction (visit.1, nextStart stop visits - visit.1, visit.2) info :=
      sameInstruction_decoded hhandles hsmall
    obtain ⟨info, hinfo, hsame'⟩ := hspan
    refine ⟨info :: infos, ?_, .cons hsame' hsame⟩
    simp [spans, hinfo, hdec]

/-- **The two readers agree.** On every code with opcodes that the iterator of the boots compiler
knows and with operands below `2 ^ 31`, the two readers both fail or they decode the same
instructions with the same operands, offsets and sizes. -/
theorem decodeBytecode_agrees {code : List UInt8}
    (h : ∀ visits reader, BytecodeReader.read code = some (visits, reader) →
      ∀ visit ∈ visits, handles visit.2.opcode ∧ ∀ n ∈ visit.2.operands, n < 2 ^ 31) :
    (BytecodeReader.read code = none ∧ decodeBytecode code = none) ∨
      ∃ visits reader infos, BytecodeReader.read code = some (visits, reader) ∧
        decodeBytecode code = some infos ∧
        List.Forall₂ SameInstruction (spans code.length visits) infos := by
  rw [decodeBytecode_eq]
  cases hread : BytecodeReader.read code with
  | none => exact .inl ⟨rfl, rfl⟩
  | some p =>
    obtain ⟨infos, hdec, hsame⟩ := forall₂_decoded (h p.1 p.2 hread)
    exact .inr ⟨p.1, p.2, infos, rfl, hdec, hsame⟩

/-- The code that the writer generates for `sampleCalls`, with a wide instruction and two jumps. -/
def sampleCode : List UInt8 :=
  [42, 19, 41, 0, 28, 44, 1, 0, 0, 1, 0, 0, 0, 1, 0, 1, 2, 40, 15, 65, 0]

theorem read_sampleCode : (BytecodeReader.read sampleCode).map Prod.fst =
    some [(0, .jump 19), (2, .loopStart), (3, .constInt32 ⟨300⟩ ⟨1⟩), (13, .add ⟨0⟩ ⟨1⟩ ⟨2⟩),
      (17, .jumpLoop 15), (19, .ret ⟨0⟩)] := by decide +kernel

theorem decodeBytecode_agrees_sampleCode :
    ((Bytecode.BytecodeWriter.new.run Bytecode.sampleCalls).bind fun w =>
      w.generate.map fun f => f.code) = some sampleCode ∧
    ∃ visits reader infos, BytecodeReader.read sampleCode = some (visits, reader) ∧
      decodeBytecode sampleCode = some infos ∧
      List.Forall₂ SameInstruction (spans sampleCode.length visits) infos := by
  refine ⟨by decide +kernel, ?_⟩
  have hsample := read_sampleCode
  have h : ∀ visits reader, BytecodeReader.read sampleCode = some (visits, reader) →
      ∀ visit ∈ visits, handles visit.2.opcode ∧ ∀ n ∈ visit.2.operands, n < 2 ^ 31 := by
    intro visits reader hread
    rw [hread] at hsample
    cases hsample
    decide
  rcases decodeBytecode_agrees h with ⟨hnone, -⟩ | hsame
  · rw [hnone] at hsample
    cases hsample
  · exact hsame

end Dora.Boots
