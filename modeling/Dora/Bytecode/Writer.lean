import Dora.Bytecode.Data

/-!
# The bytecode writer

An instruction whose operands all fit into a byte is an opcode followed by one byte per operand;
otherwise it is preceded by `Wide` and each operand takes four bytes. A forward jump is emitted in
wide form with a distance of zero, or as a jump through a fresh constant of the pool. A failed
assertion, an index out of bounds and an `expect` on `None` are `none`.

## Main definitions

* `BytecodeWriter.exec`: the emit methods
* `BytecodeWriter.generate`: fills in the distances, and turns a jump through the pool into an
  immediate jump when its distance fits into a byte
-/

namespace Dora.Bytecode

open UInt8

/-- Write into a vector: an index out of bounds fails. -/
def setByte (code : List UInt8) (i : ℕ) (value : UInt8) : Option (List UInt8) :=
  if i < code.length then some (code.set i value) else none

structure BytecodeWriter where
  code : List UInt8 := []
  arguments : ℕ := 0
  labelOffsets : List (Option ℕ) := []
  unresolvedJumpOffsets : List (ℕ × ℕ × Label) := []
  unresolvedJumpConsts : List (ℕ × ConstPoolIdx × Label) := []
  registers : List BytecodeType := []
  constPool : List ConstPoolEntry := []
  positions : List (ℕ × Position) := []
  position : Option Position := none
  params : List BytecodeType := []
  returnType : Option BytecodeType := none

namespace BytecodeWriter

variable (w : BytecodeWriter)

/-- `BytecodeWriter::new`. -/
def new : BytecodeWriter := {}

def addRegister (ty : BytecodeType) : Register × BytecodeWriter :=
  (⟨w.registers.length⟩, { w with registers := w.registers ++ [ty] })

/-! ## Labels -/

def offset : ℕ := asU32 w.code.length

def createLabel : Label × BytecodeWriter :=
  (⟨w.labelOffsets.length⟩, { w with labelOffsets := w.labelOffsets ++ [none] })

def defineLabel : Label × BytecodeWriter :=
  (⟨w.labelOffsets.length⟩, { w with labelOffsets := w.labelOffsets ++ [some w.offset] })

/-- The offset of a label, if it is bound; a label that was never created fails. -/
def lookupLabel (lbl : Label) : Option (Option ℕ) := w.labelOffsets[lbl.toUsize]?

def bindLabel (lbl : Label) : Option BytecodeWriter := do
  let bound ← w.lookupLabel lbl
  guard bound.isNone
  some { w with labelOffsets := w.labelOffsets.set lbl.toUsize (some w.offset) }

def setArguments (arguments : ℕ) : BytecodeWriter := { w with arguments := arguments }

def setParams (params : List BytecodeType) : BytecodeWriter := { w with params := params }

def setReturnType (returnType : Option BytecodeType) : BytecodeWriter :=
  { w with returnType := returnType }

def setPosition (pos : Position) : BytecodeWriter := { w with position := some pos }

def addConst (value : ConstPoolEntry) : ConstPoolIdx × BytecodeWriter :=
  (⟨w.constPool.length⟩, { w with constPool := w.constPool ++ [value] })

/-! ## Emission of bytes -/

def emitU8 (value : UInt8) : BytecodeWriter := { w with code := w.code ++ [value] }

def emitU32 (value : ℕ) : BytecodeWriter :=
  { w with code := w.code ++ [ofNat (value &&& 0xFF), ofNat ((value >>> 8) &&& 0xFF),
      ofNat ((value >>> 16) &&& 0xFF), ofNat ((value >>> 24) &&& 0xFF)] }

def emitWide : BytecodeWriter := w.emitU8 BytecodeOpcode.wide.toU8

def emitOpcode (code : ℕ) : Option BytecodeWriter :=
  if code ≥ 255 then do
    let w := w.emitU8 255
    guard (code < 512)
    some (w.emitU8 (ofNat (code - 255)))
  else
    some (w.emitU8 (ofNat code))

/-- Record the pending position, unless it is the one recorded last. -/
def emitPosition : Option BytecodeWriter := do
  let position ← w.position
  if w.positions.getLast?.map Prod.snd = some position then
    some { w with position := none }
  else
    some { w with positions := w.positions ++ [(asU32 w.code.length, position)], position := none }

def emitValues (op : BytecodeOpcode) (values : List ℕ) : Option BytecodeWriter := do
  let w ← (if op.needsPosition then w.emitPosition else if w.position.isNone then some w else none)
  if values.any (· > 255) then
    let w ← w.emitWide.emitOpcode op.toU8.toNat
    some (values.foldl emitU32 w)
  else
    let w ← w.emitOpcode op.toU8.toNat
    some (values.foldl (fun w value => w.emitU8 (ofNat value)) w)

section Families

variable (inst : BytecodeOpcode) (r1 r2 r3 : Register) (idx fieldIdx : ConstPoolIdx)
  (lth : Register) (gid : GlobalDefinitionId) (offset : ℕ)

def emitReg3 := w.emitValues inst [asU32 r1.toUsize, asU32 r2.toUsize, asU32 r3.toUsize]
def emitReg2 := w.emitValues inst [asU32 r1.toUsize, asU32 r2.toUsize]
def emitReg2Idx := w.emitValues inst [asU32 r1.toUsize, asU32 r2.toUsize, asU32 idx.toUsize]
def emitReg1 := w.emitValues inst [asU32 r1.toUsize]
def emitReg1Idx := w.emitValues inst [asU32 r1.toUsize, asU32 idx.toUsize]

def emitReg1Uint8 (inst : BytecodeOpcode) (r1 : Register) (value : UInt8) :
    Option BytecodeWriter := do
  let w ← w.emitValues inst [asU32 r1.toUsize]
  some (w.emitU8 value)

def emitNew := w.emitReg1Idx inst r1 idx
def emitNewArr := w.emitValues inst [asU32 r1.toUsize, asU32 idx.toUsize, asU32 lth.toUsize]
def emitFct := w.emitReg1Idx inst r1 idx
def emitAccessField := w.emitReg2Idx inst r1 r2 fieldIdx
def emitAccessTuple := w.emitReg2Idx inst r1 r2 idx
def emitAccessEnum := w.emitReg2Idx inst r1 r2 idx
def emitLoadGlobalInst := w.emitValues inst [asU32 r1.toUsize, asU32 gid.toUsize]
def emitStoreGlobalInst := w.emitValues inst [asU32 r1.toUsize, asU32 gid.toUsize]
def emitOp := w.emitValues inst []
def emitJmp := w.emitValues inst [offset]

end Families

/-- Emit the condition of a jump in the given operand encoding, if it has one. -/
def emitCond (emit : BytecodeWriter → ℕ → BytecodeWriter) : Option Register → BytecodeWriter
  | some cond => emit w (asU32 cond.toUsize)
  | none => w

def emitJmpForward (inst instConst : BytecodeOpcode) (cond : Option Register) (lbl : Label) :
    Option BytecodeWriter :=
  let start := w.offset
  if cond.any (fun cond => !fitsU8 (asU32 cond.toUsize)) || !fitsU8 (asU32 w.constPool.length)
  then do
    let w ← w.emitWide.emitOpcode inst.toU8.toNat
    let w := w.emitCond emitU32 cond
    let address := w.offset
    let w := w.emitU32 0
    some { w with
      unresolvedJumpOffsets := w.unresolvedJumpOffsets ++ [(start, address, lbl)] }
  else do
    let w ← w.emitOpcode instConst.toU8.toNat
    let w := w.emitCond (fun w value => w.emitU8 (ofNat value)) cond
    let (idx, w) := w.addConst (.int32 0)
    let w := w.emitU8 (ofNat idx.toUsize)
    some { w with unresolvedJumpConsts := w.unresolvedJumpConsts ++ [(start, idx, lbl)] }

/-- A constant is put into the pool and loaded from there. -/
def emitConst (inst : BytecodeOpcode) (dest : Register) (value : ConstPoolEntry) :
    Option BytecodeWriter :=
  let (idx, w) := w.addConst value
  w.emitReg1Idx inst dest idx

/-- A forward jump; the label must not be bound yet. -/
def emitJmpUnbound (inst instConst : BytecodeOpcode) (cond : Option Register) (lbl : Label) :
    Option BytecodeWriter := do
  guard (← w.lookupLabel lbl).isNone
  w.emitJmpForward inst instConst cond lbl

def emitJumpLoop (lbl : Label) : Option BytecodeWriter := do
  let offset ← (← w.lookupLabel lbl)
  guard (offset ≤ w.code.length)
  w.emitJmp .jumpLoop (asU32 (w.code.length - offset))

/-! ## The end of the emission -/

def bytecodeAt (offset : ℕ) : Option BytecodeOpcode := do
  BytecodeOpcode.fromU8 (← w.code[offset]?)

def patchU32 (offset value : ℕ) : Option BytecodeWriter := do
  let code ← setByte w.code offset (ofNat (value &&& 0xFF))
  let code ← setByte code (offset + 1) (ofNat ((value >>> 8) &&& 0xFF))
  let code ← setByte code (offset + 2) (ofNat ((value >>> 16) &&& 0xFF))
  let code ← setByte code (offset + 3) (ofNat ((value >>> 24) &&& 0xFF))
  some { w with code := code }

def patchConst (idx : ConstPoolIdx) (entry : ConstPoolEntry) : Option BytecodeWriter := do
  guard (idx.toUsize < w.constPool.length)
  some { w with constPool := w.constPool.set idx.toUsize entry }

/-- The body of the loop over the wide forward jumps. -/
def resolveJumpOffset (jump : ℕ × ℕ × Label) : Option BytecodeWriter := do
  let (start, address, label) := jump
  let label ← (← w.lookupLabel label)
  guard (start < label)
  w.patchU32 address (asU32 (label - start))

/-- The immediate form of a jump through the constant pool. -/
def immediateJump : BytecodeOpcode → Option BytecodeOpcode
  | .jumpIfFalseConst => some .jumpIfFalse
  | .jumpIfTrueConst => some .jumpIfTrue
  | .jumpConst => some .jump
  | _ => none

/-- The body of the loop over the forward jumps through the constant pool. -/
def resolveJumpConst (jump : ℕ × ConstPoolIdx × Label) : Option BytecodeWriter := do
  let (start, constIdx, label) := jump
  let target ← (← w.lookupLabel label)
  guard (start < target)
  let distance := asU32 (target - start)
  let inst ← w.bytecodeAt start
  if inst ≠ .wide ∧ fitsU8 distance then
    let instImm ← immediateJump inst
    let jumpTarget := if inst = .jumpConst then 1 else 2
    let code ← setByte w.code start instImm.toU8
    let code ← setByte code (start + jumpTarget) (ofNat distance)
    some { w with code := code }
  else
    w.patchConst constIdx (.int32 (BitVec.ofNat 32 distance))

def resolveForwardJumps : Option BytecodeWriter := do
  let jumps := w.unresolvedJumpOffsets
  let w ← jumps.foldlM resolveJumpOffset { w with unresolvedJumpOffsets := [] }
  let jumps := w.unresolvedJumpConsts
  jumps.foldlM resolveJumpConst { w with unresolvedJumpConsts := [] }

/-- The function leaves the parameters and the return type of the writer behind. -/
def generate : Option BytecodeFunction := do
  let w ← w.resolveForwardJumps
  some { code := w.code, constPool := w.constPool, registers := w.registers,
         arguments := w.arguments, positions := w.positions, params := [], returnType := none }

end BytecodeWriter

/-! ## Sequences of calls -/

/-- The calls of the public methods of the writer. -/
inductive Call
  | addRegister (ty : BytecodeType)
  | createLabel
  | defineLabel
  | bindLabel (lbl : Label)
  | setArguments (arguments : ℕ)
  | setParams (params : List BytecodeType)
  | setReturnType (returnType : Option BytecodeType)
  | setPosition (pos : Position)
  | addConst (value : ConstPoolEntry)
  | emitAdd (dest lhs rhs : Register)
  | emitAnd (dest lhs rhs : Register)
  | emitOr (dest lhs rhs : Register)
  | emitXor (dest lhs rhs : Register)
  | emitDiv (dest lhs rhs : Register)
  | emitLoadStructField (dest obj : Register) (fieldIdx : ConstPoolIdx)
  | emitLoadField (dest obj : Register) (fieldIdx : ConstPoolIdx)
  | emitStoreField (src obj : Register) (fieldIdx : ConstPoolIdx)
  | emitConstChar (dest : Register) (value : Char)
  | emitConstUint8 (dest : Register) (value : UInt8)
  | emitConstInt32 (dest : Register) (value : BitVec 32)
  | emitConstInt64 (dest : Register) (value : BitVec 64)
  | emitConstFloat32 (dest : Register) (value : BitVec 32)
  | emitConstFloat64 (dest : Register) (value : BitVec 64)
  | emitConstString (dest : Register) (value : String)
  | emitConstTrue (dest : Register)
  | emitConstFalse (dest : Register)
  | emitNot (dest src : Register)
  | emitJumpIfFalse (opnd : Register) (lbl : Label)
  | emitJumpIfTrue (opnd : Register) (lbl : Label)
  | emitJumpLoop (lbl : Label)
  | emitLoopStart
  | emitJump (lbl : Label)
  | emitMod (dest lhs rhs : Register)
  | emitMul (dest lhs rhs : Register)
  | emitNeg (dest src : Register)
  | emitShl (dest lhs rhs : Register)
  | emitShr (dest lhs rhs : Register)
  | emitSar (dest lhs rhs : Register)
  | emitSub (dest lhs rhs : Register)
  | emitMov (dest src : Register)
  | emitLoadTupleElement (dest src : Register) (idx : ConstPoolIdx)
  | emitLoadEnumElement (dest src : Register) (idx : ConstPoolIdx)
  | emitLoadEnumVariant (dest src : Register) (idx : ConstPoolIdx)
  | emitRet (src : Register)
  | emitTestIdentity (dest lhs rhs : Register)
  | emitTestEq (dest lhs rhs : Register)
  | emitTestNe (dest lhs rhs : Register)
  | emitTestGt (dest lhs rhs : Register)
  | emitTestGe (dest lhs rhs : Register)
  | emitTestLt (dest lhs rhs : Register)
  | emitTestLe (dest lhs rhs : Register)
  | emitLoadGlobal (dest : Register) (gid : GlobalDefinitionId)
  | emitStoreGlobal (src : Register) (gid : GlobalDefinitionId)
  | emitPushRegister (src : Register)
  | emitInvokeDirect (dest : Register) (fid : ConstPoolIdx)
  | emitInvokeVirtual (dest : Register) (idx : ConstPoolIdx)
  | emitInvokeLambda (dest : Register) (idx : ConstPoolIdx)
  | emitInvokeStatic (dest : Register) (idx : ConstPoolIdx)
  | emitInvokeGenericStatic (dest : Register) (idx : ConstPoolIdx)
  | emitInvokeGenericDirect (dest : Register) (idx : ConstPoolIdx)
  | emitNewObject (dest : Register) (idx : ConstPoolIdx)
  | emitNewObjectInitialized (dest : Register) (idx : ConstPoolIdx)
  | emitNewArray (dest : Register) (clsId : ConstPoolIdx) (length : Register)
  | emitNewTuple (dest : Register) (idx : ConstPoolIdx)
  | emitNewEnum (dest : Register) (idx : ConstPoolIdx)
  | emitNewStruct (dest : Register) (idx : ConstPoolIdx)
  | emitNewTraitObject (dest : Register) (idx : ConstPoolIdx) (src : Register)
  | emitNewLambda (dest : Register) (idx : ConstPoolIdx)
  | emitArrayLength (dest array : Register)
  | emitStoreArray (src array idx : Register)
  | emitLoadArray (dest array idx : Register)

namespace BytecodeWriter

/-- The public methods: what each of them does. -/
def exec (w : BytecodeWriter) : Call → Option BytecodeWriter
  | .addRegister ty => some (w.addRegister ty).2
  | .createLabel => some w.createLabel.2
  | .defineLabel => some w.defineLabel.2
  | .bindLabel lbl => w.bindLabel lbl
  | .setArguments arguments => some (w.setArguments arguments)
  | .setParams params => some (w.setParams params)
  | .setReturnType returnType => some (w.setReturnType returnType)
  | .setPosition pos => some (w.setPosition pos)
  | .addConst value => some (w.addConst value).2
  | .emitAdd dest lhs rhs => w.emitReg3 .add dest lhs rhs
  | .emitAnd dest lhs rhs => w.emitReg3 .and dest lhs rhs
  | .emitOr dest lhs rhs => w.emitReg3 .or dest lhs rhs
  | .emitXor dest lhs rhs => w.emitReg3 .xor dest lhs rhs
  | .emitDiv dest lhs rhs => w.emitReg3 .div dest lhs rhs
  | .emitLoadStructField dest obj fieldIdx => w.emitAccessField .loadStructField dest obj fieldIdx
  | .emitLoadField dest obj fieldIdx => w.emitAccessField .loadField dest obj fieldIdx
  | .emitStoreField src obj fieldIdx => w.emitAccessField .storeField src obj fieldIdx
  | .emitConstChar dest value => w.emitConst .constChar dest (.char value)
  | .emitConstUint8 dest value => w.emitReg1Uint8 .constUInt8 dest value
  | .emitConstInt32 dest value => w.emitConst .constInt32 dest (.int32 value)
  | .emitConstInt64 dest value => w.emitConst .constInt64 dest (.int64 value)
  | .emitConstFloat32 dest value => w.emitConst .constFloat32 dest (.float32 value)
  | .emitConstFloat64 dest value => w.emitConst .constFloat64 dest (.float64 value)
  | .emitConstString dest value => w.emitConst .constString dest (.string value)
  | .emitConstTrue dest => w.emitReg1 .constTrue dest
  | .emitConstFalse dest => w.emitReg1 .constFalse dest
  | .emitNot dest src => w.emitReg2 .not dest src
  | .emitJumpIfFalse opnd lbl => w.emitJmpUnbound .jumpIfFalse .jumpIfFalseConst (some opnd) lbl
  | .emitJumpIfTrue opnd lbl => w.emitJmpUnbound .jumpIfTrue .jumpIfTrueConst (some opnd) lbl
  | .emitJumpLoop lbl => w.emitJumpLoop lbl
  | .emitLoopStart => w.emitOp .loopStart
  | .emitJump lbl => w.emitJmpUnbound .jump .jumpConst none lbl
  | .emitMod dest lhs rhs => w.emitReg3 .mod dest lhs rhs
  | .emitMul dest lhs rhs => w.emitReg3 .mul dest lhs rhs
  | .emitNeg dest src => w.emitReg2 .neg dest src
  | .emitShl dest lhs rhs => w.emitReg3 .shl dest lhs rhs
  | .emitShr dest lhs rhs => w.emitReg3 .shr dest lhs rhs
  | .emitSar dest lhs rhs => w.emitReg3 .sar dest lhs rhs
  | .emitSub dest lhs rhs => w.emitReg3 .sub dest lhs rhs
  | .emitMov dest src => w.emitReg2 .mov dest src
  | .emitLoadTupleElement dest src idx => w.emitAccessTuple .loadTupleElement dest src idx
  | .emitLoadEnumElement dest src idx => w.emitAccessEnum .loadEnumElement dest src idx
  | .emitLoadEnumVariant dest src idx => w.emitReg2Idx .loadEnumVariant dest src idx
  | .emitRet src => w.emitReg1 .ret src
  | .emitTestIdentity dest lhs rhs => w.emitReg3 .testIdentity dest lhs rhs
  | .emitTestEq dest lhs rhs => w.emitReg3 .testEq dest lhs rhs
  | .emitTestNe dest lhs rhs => w.emitReg3 .testNe dest lhs rhs
  | .emitTestGt dest lhs rhs => w.emitReg3 .testGt dest lhs rhs
  | .emitTestGe dest lhs rhs => w.emitReg3 .testGe dest lhs rhs
  | .emitTestLt dest lhs rhs => w.emitReg3 .testLt dest lhs rhs
  | .emitTestLe dest lhs rhs => w.emitReg3 .testLe dest lhs rhs
  | .emitLoadGlobal dest gid => w.emitLoadGlobalInst .loadGlobal dest gid
  | .emitStoreGlobal src gid => w.emitStoreGlobalInst .storeGlobal src gid
  | .emitPushRegister src => w.emitReg1 .pushRegister src
  | .emitInvokeDirect dest fid => w.emitFct .invokeDirect dest fid
  | .emitInvokeVirtual dest idx => w.emitFct .invokeVirtual dest idx
  | .emitInvokeLambda dest idx => w.emitReg1Idx .invokeLambda dest idx
  | .emitInvokeStatic dest idx => w.emitFct .invokeStatic dest idx
  | .emitInvokeGenericStatic dest idx => w.emitFct .invokeGenericStatic dest idx
  | .emitInvokeGenericDirect dest idx => w.emitFct .invokeGenericDirect dest idx
  | .emitNewObject dest idx => w.emitNew .newObject dest idx
  | .emitNewObjectInitialized dest idx => w.emitNew .newObjectInitialized dest idx
  | .emitNewArray dest clsId length => w.emitNewArr .newArray dest clsId length
  | .emitNewTuple dest idx => w.emitValues .newTuple [asU32 dest.toUsize, asU32 idx.toUsize]
  | .emitNewEnum dest idx => w.emitValues .newEnum [asU32 dest.toUsize, asU32 idx.toUsize]
  | .emitNewStruct dest idx => w.emitValues .newStruct [asU32 dest.toUsize, asU32 idx.toUsize]
  | .emitNewTraitObject dest idx src =>
    w.emitValues .newTraitObject [asU32 dest.toUsize, asU32 idx.toUsize, asU32 src.toUsize]
  | .emitNewLambda dest idx => w.emitValues .newLambda [asU32 dest.toUsize, asU32 idx.toUsize]
  | .emitArrayLength dest array => w.emitReg2 .arrayLength dest array
  | .emitStoreArray src array idx => w.emitReg3 .storeArray src array idx
  | .emitLoadArray dest array idx => w.emitReg3 .loadArray dest array idx

/-- The effect of a sequence of calls. -/
def run (w : BytecodeWriter) (calls : List Call) : Option BytecodeWriter := calls.foldlM exec w

end BytecodeWriter

end Dora.Bytecode
