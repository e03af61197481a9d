import Dora.Lib.ByteCursor
import Dora.Lib.Layout
import Dora.Bytecode.Data

/-!
# The bytecode reader

The width of the operands is part of the state: `readOpcode` sets it from the presence of the `Wide`
prefix. Reading past the end, an illegal opcode and an `unreachable!` are `none`.

## Main definitions

* `BytecodeReader.read`: the instructions of a code, with their offsets
* `BytecodeInstruction.encode`: the bytes of an instruction in a width

## Main results

* `BytecodeReader.readLoop_encode`: encoded instructions are read back
-/

namespace Dora.Bytecode

open OperandWidth

structure BytecodeReader where
  code : List UInt8
  offset : ℕ
  width : OperandWidth

/-- Methods of the reader: they move its offset and may fail. -/
abbrev ReadM := StateT BytecodeReader Option

namespace BytecodeReader

/-- `BytecodeReader::new`. -/
def new (code : List UInt8) : BytecodeReader := ⟨code, 0, .normal⟩

instance : Cursor BytecodeReader OperandWidth where
  remaining r := r.code.drop r.offset
  advance n r := { r with offset := r.offset + n }
  mode r := r.width
  remaining_advance n r := by simp [Nat.add_comm]
  advance_zero _ := rfl
  advance_advance m n r := by simp [Nat.add_assoc]
  mode_advance _ _ := rfl

def readByte : ReadM UInt8 := fun r => do
  let value ← r.code[r.offset]?
  some (value, { r with offset := r.offset + 1 })

def readWide : ReadM ℕ := do
  let v1 ← readByte
  let v2 ← readByte
  let v3 ← readByte
  let v4 ← readByte
  pure ((v4.toNat <<< 24) ||| ((v3.toNat <<< 16) ||| ((v2.toNat <<< 8) ||| v1.toNat)))

def readIndex : ReadM ℕ := do
  match (← get).width with
  | .normal => return (← readByte).toNat
  | .wide => readWide

def readRegister : ReadM Register := return ⟨← readIndex⟩

def readGlobal : ReadM GlobalDefinitionId := return ⟨← readIndex⟩

def readConstPoolIdx : ReadM ConstPoolIdx := return ⟨← readIndex⟩

def readOffset : ReadM ℕ := readIndex

def setWidth (width : OperandWidth) : ReadM Unit := modify fun r => { r with width := width }

def readOpcode : ReadM BytecodeOpcode := do
  let opcode ← readByte
  let opcode ← if opcode = BytecodeOpcode.wide.toU8 then do
      setWidth .wide
      readByte
    else do
      setWidth .normal
      pure opcode
  StateT.lift (BytecodeOpcode.fromU8 opcode)

section Arms

variable (inst : Register → BytecodeInstruction)
  (inst2 : Register → Register → BytecodeInstruction)
  (inst3 : Register → Register → Register → BytecodeInstruction)
  (instIdx : Register → ConstPoolIdx → BytecodeInstruction)
  (inst2Idx : Register → Register → ConstPoolIdx → BytecodeInstruction)

/-- The arms of `read_instruction` for an instruction with registers only. -/
def readReg1 : ReadM BytecodeInstruction := return inst (← readRegister)

def readReg2 : ReadM BytecodeInstruction := return inst2 (← readRegister) (← readRegister)

def readReg3 : ReadM BytecodeInstruction :=
  return inst3 (← readRegister) (← readRegister) (← readRegister)

/-- The arms for registers and a constant. -/
def readReg1Idx : ReadM BytecodeInstruction := return instIdx (← readRegister) (← readConstPoolIdx)

def readReg2Idx : ReadM BytecodeInstruction :=
  return inst2Idx (← readRegister) (← readRegister) (← readConstPoolIdx)

end Arms

/-- The operands of an instruction: the arms of `read_instruction`. -/
def readOperands : BytecodeOpcode → ReadM BytecodeInstruction
  | .wide => failure
  | .add => readReg3 .add
  | .sub => readReg3 .sub
  | .neg => readReg2 .neg
  | .mul => readReg3 .mul
  | .div => readReg3 .div
  | .mod => readReg3 .mod
  | .and => readReg3 .and
  | .or => readReg3 .or
  | .xor => readReg3 .xor
  | .not => readReg2 .not
  | .shl => readReg3 .shl
  | .shr => readReg3 .shr
  | .sar => readReg3 .sar
  | .mov => readReg2 .mov
  | .loadTupleElement => readReg2Idx .loadTupleElement
  | .loadEnumElement => readReg2Idx .loadEnumElement
  | .loadEnumVariant => readReg2Idx .loadEnumVariant
  | .loadStructField => readReg2Idx .loadStructField
  | .loadField => readReg2Idx .loadField
  | .storeField => readReg2Idx .storeField
  | .loadGlobal => return .loadGlobal (← readRegister) (← readGlobal)
  | .storeGlobal => return .storeGlobal (← readRegister) (← readGlobal)
  | .pushRegister => readReg1 .pushRegister
  | .constTrue => readReg1 .constTrue
  | .constFalse => readReg1 .constFalse
  | .constUInt8 => return .constUInt8 (← readRegister) (← readByte)
  | .constChar => readReg1Idx .constChar
  | .constInt32 => readReg1Idx .constInt32
  | .constInt64 => readReg1Idx .constInt64
  | .constFloat32 => readReg1Idx .constFloat32
  | .constFloat64 => readReg1Idx .constFloat64
  | .constString => readReg1Idx .constString
  | .testIdentity => readReg3 .testIdentity
  | .testEq => readReg3 .testEq
  | .testNe => readReg3 .testNe
  | .testGt => readReg3 .testGt
  | .testGe => readReg3 .testGe
  | .testLt => readReg3 .testLt
  | .testLe => readReg3 .testLe
  | .jumpLoop => return .jumpLoop (← readOffset)
  | .loopStart => pure .loopStart
  | .jump => return .jump (← readOffset)
  | .jumpConst => return .jumpConst (← readConstPoolIdx)
  | .jumpIfFalse => return .jumpIfFalse (← readRegister) (← readOffset)
  | .jumpIfFalseConst => readReg1Idx .jumpIfFalseConst
  | .jumpIfTrue => return .jumpIfTrue (← readRegister) (← readOffset)
  | .jumpIfTrueConst => readReg1Idx .jumpIfTrueConst
  | .invokeDirect => readReg1Idx .invokeDirect
  | .invokeVirtual => readReg1Idx .invokeVirtual
  | .invokeStatic => readReg1Idx .invokeStatic
  | .invokeLambda => readReg1Idx .invokeLambda
  | .invokeGenericStatic => readReg1Idx .invokeGenericStatic
  | .invokeGenericDirect => readReg1Idx .invokeGenericDirect
  | .newObject => readReg1Idx .newObject
  | .newObjectInitialized => readReg1Idx .newObjectInitialized
  | .newArray => return .newArray (← readRegister) (← readConstPoolIdx) (← readRegister)
  | .newTuple => readReg1Idx .newTuple
  | .newEnum => readReg1Idx .newEnum
  | .newStruct => readReg1Idx .newStruct
  | .newTraitObject => return .newTraitObject (← readRegister) (← readConstPoolIdx) (← readRegister)
  | .newLambda => readReg1Idx .newLambda
  | .arrayLength => readReg2 .arrayLength
  | .loadArray => readReg3 .loadArray
  | .storeArray => readReg3 .storeArray
  | .ret => readReg1 .ret

def readInstruction : ReadM (ℕ × OperandWidth × BytecodeOpcode × BytecodeInstruction) := do
  let start := (← get).offset
  let opcode ← readOpcode
  let inst ← readOperands opcode
  return (start, (← get).width, opcode, inst)

/-- `Iterator::next`. -/
def next : ReadM (Option BytecodeInstruction) := do
  let r ← get
  if r.offset < r.code.length then
    let (_, _, _, inst) ← readInstruction
    return some inst
  else
    guard (r.offset = r.code.length)
    return none

/-- The loop of `BytecodeFullIteration::read`: the instructions it visits, each with the offset
it is visited at. Every instruction takes at least one byte, so the length of the code bounds
the number of rounds. -/
def readLoop : ℕ → ℕ → ReadM (List (ℕ × BytecodeInstruction))
  | 0, _ => failure
  | fuel + 1, last => do
    match ← next with
    | some inst =>
      let visited ← readLoop fuel (← get).offset
      return (last, inst) :: visited
    | none => return []

/-- Iterate over the whole code: the instructions visited, and the reader at the end. -/
def read (code : List UInt8) : Option (List (ℕ × BytecodeInstruction) × BytecodeReader) :=
  readLoop (code.length + 1) 0 (new code)

end BytecodeReader

/-! ## Encoded instructions -/

namespace OperandWidth

/-- The operands a width can hold. -/
def Fits (width : OperandWidth) (value : ℕ) : Prop := value < 256 ^ width.size

instance (width : OperandWidth) (value : ℕ) : Decidable (width.Fits value) :=
  inferInstanceAs (Decidable (_ < _))

/-- The bytes of an operand. -/
def encode (width : OperandWidth) (value : ℕ) : List UInt8 := Bytes.ofNatLE width.size value

/-- What stands before the opcode. -/
def marker : OperandWidth → List UInt8
  | normal => []
  | wide => [BytecodeOpcode.wide.toU8]

end OperandWidth

namespace BytecodeInstruction

variable (width : OperandWidth)

/-- The bytes behind the opcode. -/
def encodeOperands (i : BytecodeInstruction) : List UInt8 :=
  i.operands.foldr (fun value bytes => width.encode value ++ bytes) i.immediate

/-- The bytes of an instruction. -/
def encode (i : BytecodeInstruction) : List UInt8 :=
  width.marker ++ i.opcode.toU8 :: i.encodeOperands width

/-- The operands of the instruction fit into the width. -/
def Fits (i : BytecodeInstruction) : Prop :=
  ∀ value ∈ i.operands, width.Fits value

theorem length_encode_pos (i : BytecodeInstruction) : 0 < (i.encode width).length := by
  simp [encode]

end BytecodeInstruction

/-- An instruction with the width it is encoded in. -/
structure Coded where
  width : OperandWidth
  inst : BytecodeInstruction

namespace Coded

def bytes (c : Coded) : List UInt8 := c.inst.encode c.width

def size (c : Coded) : ℕ := c.bytes.length

def Fits (c : Coded) : Prop := c.inst.Fits c.width

end Coded

/-! ## Reading encoded instructions -/

namespace BytecodeReader

open Cursor (remaining advance mode)
open Layout (place)
open BytecodeInstruction (encodeOperands operands immediate)

theorem readByte_cons {r : BytecodeReader} {b : UInt8} {rest : List UInt8}
    (h : r.code.drop r.offset = b :: rest) :
    readByte r = some (b, { r with offset := r.offset + 1 }) := by
  have hb : r.code[r.offset]? = some b := by
    rw [← List.head?_drop, h, List.head?_cons]
  simp [readByte, hb]

theorem reads_readByte (w : OperandWidth) (b : UInt8) : Reads w readByte [b] b := by
  intro r rest _ hr
  exact readByte_cons hr

theorem reads_readWide (w : OperandWidth) (value : ℕ) (h : value < 2 ^ 32) :
    Reads w readWide (Bytes.ofNatLE 4 value) value := by
  have hv : ∀ v1 v2 v3 v4 : UInt8, Reads w readWide [v1, v2, v3, v4]
      (Bytes.toNatLE [v1, v2, v3, v4]) := by
    intro v1 v2 v3 v4
    have h1 := v1.toNat_lt
    have h2 := v2.toNat_lt
    have h3 := v3.toNat_lt
    have e1 : (v2.toNat <<< 8) ||| v1.toNat = 2 ^ 8 * v2.toNat + v1.toNat := Bytes.shiftLeft_or h1
    have e2 : (v3.toNat <<< 16) ||| (2 ^ 8 * v2.toNat + v1.toNat) =
        2 ^ 16 * v3.toNat + (2 ^ 8 * v2.toNat + v1.toNat) := Bytes.shiftLeft_or (by omega)
    have e3 : (v4.toNat <<< 24) ||| (2 ^ 16 * v3.toNat + (2 ^ 8 * v2.toNat + v1.toNat)) =
        2 ^ 24 * v4.toNat + (2 ^ 16 * v3.toNat + (2 ^ 8 * v2.toNat + v1.toNat)) :=
      Bytes.shiftLeft_or (by omega)
    refine Reads.congr (((reads_readByte w v1).bind ((reads_readByte w v2).bind
      ((reads_readByte w v3).bind ((reads_readByte w v4).bind (Reads.pure w _)))))) rfl ?_
    rw [e1, e2, e3]
    simp only [Bytes.toNatLE]
    omega
  refine Reads.congr (hv _ _ _ _) rfl ?_
  exact (Bytes.toNatLE_ofNatLE 4 value).trans (Nat.mod_eq_of_lt h)

section

variable {w : OperandWidth}

variable {value : ℕ} {i : BytecodeInstruction} {r : BytecodeReader} {rest : List UInt8}

/-- The width in the state of the reader decides how an operand is read. -/
theorem reads_readIndex (h : w.Fits value) : Reads w readIndex (w.encode value) value := by
  intro r rest hw hr
  have hw' : r.width = w := hw
  cases w with
  | normal =>
    have hb := readByte_cons hr
    have hv : value < 256 := by simpa [Fits, size] using h
    have hn : (UInt8.ofNat value).toNat = value := by
      exact Nat.mod_eq_of_lt hv
    simp [readIndex, hw', hb, hn, advance, encode, size]
  | wide =>
    have hv : value < 2 ^ 32 := by simpa [Fits, size] using h
    have hr' := reads_readWide .wide value hv r rest hw hr
    simp [readIndex, hw', hr', encode, size]

theorem reads_readRegister {reg : Register} (h : w.Fits reg.toUsize) :
    Reads w readRegister (w.encode reg.toUsize) reg :=
  (reads_readIndex h).bind_pure (Reads.pure w _)

theorem reads_readGlobal {gid : GlobalDefinitionId} (h : w.Fits gid.toUsize) :
    Reads w readGlobal (w.encode gid.toUsize) gid :=
  (reads_readIndex h).bind_pure (Reads.pure w _)

theorem reads_readConstPoolIdx {idx : ConstPoolIdx} (h : w.Fits idx.toUsize) :
    Reads w readConstPoolIdx (w.encode idx.toUsize) idx :=
  (reads_readIndex h).bind_pure (Reads.pure w _)

theorem reads_readOffset (h : w.Fits value) :
    Reads w readOffset (w.encode value) value :=
  reads_readIndex h

/-- Every arm of the reader reads the operands of its instruction, in their order. -/
theorem reads_readOperands (h : i.Fits w) :
    Reads w (readOperands i.opcode) (i.encodeOperands w) i := by
  cases i
  all_goals
    repeat first
      | exact Reads.pure w _
      | refine Reads.bind (reads_readRegister (h _ (by simp [operands]))) ?_
      | refine Reads.bind (reads_readConstPoolIdx (h _ (by simp [operands]))) ?_
      | refine Reads.bind (reads_readGlobal (h _ (by simp [operands]))) ?_
      | refine Reads.bind (reads_readOffset (h _ (by simp [operands]))) ?_
      | refine Reads.bind (reads_readByte w _) ?_

theorem readOpcode_encode {op : BytecodeOpcode}
    (hop : op ≠ .wide) (hr : r.code.drop r.offset = w.marker ++ op.toU8 :: rest) :
    readOpcode r =
      some (op, { r with offset := r.offset + (w.marker.length + 1), width := w }) := by
  cases w with
  | normal =>
    have hb := readByte_cons (by simpa [marker] using hr)
    have hne : op.toU8 ≠ BytecodeOpcode.wide.toU8 := fun h =>
      hop (BytecodeOpcode.toU8_injective h)
    simp [readOpcode, hb, hne, setWidth, marker]
  | wide =>
    have hb := readByte_cons (by simpa [marker] using hr)
    have hr' : r.code.drop (r.offset + 1) = op.toU8 :: rest := by
      have := congrArg (List.drop 1) hr
      simpa [marker] using this
    have hb' := readByte_cons (r := { r with offset := r.offset + 1, width := .wide }) hr'
    simp [readOpcode, hb, hb', setWidth, marker]

/-- **The reader reads an encoded instruction back**, from whatever instruction was read before. -/
theorem readInstruction_encode
    (h : i.Fits w) (hr : r.code.drop r.offset = i.encode w ++ rest) :
    readInstruction r = some ((r.offset, w, i.opcode, i),
      { r with offset := r.offset + (i.encode w).length, width := w }) := by
  have hop := readOpcode_encode i.opcode_ne_wide (by simpa [BytecodeInstruction.encode] using hr)
  have hrest : r.code.drop (r.offset + (w.marker.length + 1)) = i.encodeOperands w ++ rest := by
    rw [← List.drop_drop, hr, BytecodeInstruction.encode]
    simp
  have hops := reads_readOperands h
    { r with offset := r.offset + (w.marker.length + 1), width := w } rest rfl hrest
  simp [readInstruction, hop, hops, advance, BytecodeInstruction.encode]
  omega

end

/-- **Iterating over encoded instructions** reads them back, each at its offset, and ends exactly
at the end of the code. -/
theorem readLoop_encode (items : List Coded) (h : ∀ item ∈ items, item.Fits) (fuel : ℕ)
    (hf : items.length < fuel) (r : BytecodeReader) (hle : r.offset ≤ r.code.length)
    (hr : r.code.drop r.offset = items.flatMap Coded.bytes) :
    ∃ width, readLoop fuel r.offset r =
      some ((place Coded.size r.offset items).map fun p => (p.1, p.2.inst),
        { r with offset := r.code.length, width := width }) := by
  induction items generalizing fuel r with
  | nil =>
    obtain ⟨fuel, rfl⟩ := Nat.exists_eq_succ_of_ne_zero (Nat.ne_of_gt hf)
    have hend : r.offset = r.code.length := by
      have := List.drop_eq_nil_iff.mp hr
      omega
    refine ⟨r.width, ?_⟩
    simp [readLoop, next, hend, place, guard]
    rw [← hend]
  | cons item items ih =>
    obtain ⟨w, i⟩ := item
    obtain ⟨fuel, rfl⟩ := Nat.exists_eq_succ_of_ne_zero (by omega : fuel ≠ 0)
    rw [List.flatMap_cons] at hr
    have hlt : r.offset < r.code.length := by
      have hlen := congrArg List.length hr
      have hpos := i.length_encode_pos w
      simp only [List.length_drop, List.length_append, Coded.bytes] at hlen
      omega
    have hi := readInstruction_encode (h ⟨w, i⟩ List.mem_cons_self) hr
    have hdrop : r.code.drop (r.offset + (i.encode w).length) = items.flatMap Coded.bytes := by
      rw [← List.drop_drop, hr]
      simp [Coded.bytes]
    have hle' : r.offset + (i.encode w).length ≤ r.code.length := by
      have hlen := congrArg List.length hr
      simp only [List.length_drop, List.length_append, Coded.bytes] at hlen
      omega
    obtain ⟨width, hrec⟩ := ih (fun item hitem => h item (List.mem_cons_of_mem _ hitem)) fuel
      (by simpa using hf) { r with offset := r.offset + (i.encode w).length, width := w } hle' hdrop
    refine ⟨width, ?_⟩
    simp [readLoop, next, hlt, hi, hrec, place, Coded.size, Coded.bytes]

theorem read_encode (items : List Coded) (h : ∀ item ∈ items, item.Fits) :
    ∃ reader, read (items.flatMap Coded.bytes) =
      some ((place Coded.size 0 items).map fun p => (p.1, p.2.inst), reader) ∧
        reader.offset = (items.flatMap Coded.bytes).length := by
  have hlen := Layout.length_le_flatMap items fun item => item.inst.length_encode_pos item.width
  obtain ⟨width, hread⟩ := readLoop_encode items h ((items.flatMap Coded.bytes).length + 1)
    (Nat.lt_succ_of_le hlen) (new _) (Nat.zero_le _) rfl
  exact ⟨_, hread, rfl⟩

end BytecodeReader

end Dora.Bytecode
