import Dora.Bytecode.Writer
import Dora.Bytecode.Reader

/-!
# What the calls emit

Most of the emit methods append one instruction with the operands they are given. Six put a
constant into the pool first, three emit a forward jump, and one a backward jump.

## Main definitions

* `Call.view`: the instruction a call stands for

## Main results

* `BytecodeWriter.emitInstruction_eq`: the code of an instruction is its encoding
* `BytecodeWriter.exec_grows`: a call only adds to what was emitted
-/

namespace Dora.Bytecode

open List BytecodeInstruction

/-- The forward jumps. -/
inductive Forward
  | jump
  | ifFalse (opnd : Register)
  | ifTrue (opnd : Register)
  deriving DecidableEq, Repr

namespace Forward

def inst : Forward → BytecodeOpcode
  | jump => .jump
  | ifFalse _ => .jumpIfFalse
  | ifTrue _ => .jumpIfTrue

def instConst : Forward → BytecodeOpcode
  | jump => .jumpConst
  | ifFalse _ => .jumpIfFalseConst
  | ifTrue _ => .jumpIfTrueConst

def cond : Forward → Option Register
  | jump => none
  | ifFalse opnd | ifTrue opnd => some opnd

/-- The jump with its distance as an operand. -/
def immediate : Forward → ℕ → BytecodeInstruction
  | jump, offset => .jump offset
  | ifFalse opnd, offset => .jumpIfFalse opnd offset
  | ifTrue opnd, offset => .jumpIfTrue opnd offset

/-- The jump with its distance in the constant pool. -/
def const : Forward → ConstPoolIdx → BytecodeInstruction
  | jump, idx => .jumpConst idx
  | ifFalse opnd, idx => .jumpIfFalseConst opnd idx
  | ifTrue opnd, idx => .jumpIfTrueConst opnd idx

end Forward

/-- What a call emits. -/
inductive View
  /-- Nothing. -/
  | silent
  /-- The instruction. -/
  | inst (i : BytecodeInstruction)
  /-- An instruction that loads a new constant of the pool. -/
  | const (entry : ConstPoolEntry) (mk : Register → ConstPoolIdx → BytecodeInstruction)
      (dest : Register)
  /-- A forward jump. -/
  | forward (f : Forward) (lbl : Label)
  /-- A backward jump. -/
  | loop (lbl : Label)

namespace Call

/-- The instruction each emit method stands for, with the operands it is given. -/
def view : Call → View
  | .emitAdd dest lhs rhs => .inst (.add dest lhs rhs)
  | .emitAnd dest lhs rhs => .inst (.and dest lhs rhs)
  | .emitOr dest lhs rhs => .inst (.or dest lhs rhs)
  | .emitXor dest lhs rhs => .inst (.xor dest lhs rhs)
  | .emitDiv dest lhs rhs => .inst (.div dest lhs rhs)
  | .emitLoadStructField dest obj fieldIdx => .inst (.loadStructField dest obj fieldIdx)
  | .emitLoadField dest obj fieldIdx => .inst (.loadField dest obj fieldIdx)
  | .emitStoreField src obj fieldIdx => .inst (.storeField src obj fieldIdx)
  | .emitConstChar dest value => .const (.char value) .constChar dest
  | .emitConstUint8 dest value => .inst (.constUInt8 dest value)
  | .emitConstInt32 dest value => .const (.int32 value) .constInt32 dest
  | .emitConstInt64 dest value => .const (.int64 value) .constInt64 dest
  | .emitConstFloat32 dest value => .const (.float32 value) .constFloat32 dest
  | .emitConstFloat64 dest value => .const (.float64 value) .constFloat64 dest
  | .emitConstString dest value => .const (.string value) .constString dest
  | .emitConstTrue dest => .inst (.constTrue dest)
  | .emitConstFalse dest => .inst (.constFalse dest)
  | .emitNot dest src => .inst (.not dest src)
  | .emitJumpIfFalse opnd lbl => .forward (.ifFalse opnd) lbl
  | .emitJumpIfTrue opnd lbl => .forward (.ifTrue opnd) lbl
  | .emitJumpLoop lbl => .loop lbl
  | .emitLoopStart => .inst .loopStart
  | .emitJump lbl => .forward .jump lbl
  | .emitMod dest lhs rhs => .inst (.mod dest lhs rhs)
  | .emitMul dest lhs rhs => .inst (.mul dest lhs rhs)
  | .emitNeg dest src => .inst (.neg dest src)
  | .emitShl dest lhs rhs => .inst (.shl dest lhs rhs)
  | .emitShr dest lhs rhs => .inst (.shr dest lhs rhs)
  | .emitSar dest lhs rhs => .inst (.sar dest lhs rhs)
  | .emitSub dest lhs rhs => .inst (.sub dest lhs rhs)
  | .emitMov dest src => .inst (.mov dest src)
  | .emitLoadTupleElement dest src idx => .inst (.loadTupleElement dest src idx)
  | .emitLoadEnumElement dest src idx => .inst (.loadEnumElement dest src idx)
  | .emitLoadEnumVariant dest src idx => .inst (.loadEnumVariant dest src idx)
  | .emitRet src => .inst (.ret src)
  | .emitTestIdentity dest lhs rhs => .inst (.testIdentity dest lhs rhs)
  | .emitTestEq dest lhs rhs => .inst (.testEq dest lhs rhs)
  | .emitTestNe dest lhs rhs => .inst (.testNe dest lhs rhs)
  | .emitTestGt dest lhs rhs => .inst (.testGt dest lhs rhs)
  | .emitTestGe dest lhs rhs => .inst (.testGe dest lhs rhs)
  | .emitTestLt dest lhs rhs => .inst (.testLt dest lhs rhs)
  | .emitTestLe dest lhs rhs => .inst (.testLe dest lhs rhs)
  | .emitLoadGlobal dest gid => .inst (.loadGlobal dest gid)
  | .emitStoreGlobal src gid => .inst (.storeGlobal src gid)
  | .emitPushRegister src => .inst (.pushRegister src)
  | .emitInvokeDirect dest fid => .inst (.invokeDirect dest fid)
  | .emitInvokeVirtual dest idx => .inst (.invokeVirtual dest idx)
  | .emitInvokeLambda dest idx => .inst (.invokeLambda dest idx)
  | .emitInvokeStatic dest idx => .inst (.invokeStatic dest idx)
  | .emitInvokeGenericStatic dest idx => .inst (.invokeGenericStatic dest idx)
  | .emitInvokeGenericDirect dest idx => .inst (.invokeGenericDirect dest idx)
  | .emitNewObject dest idx => .inst (.newObject dest idx)
  | .emitNewObjectInitialized dest idx => .inst (.newObjectInitialized dest idx)
  | .emitNewArray dest clsId length => .inst (.newArray dest clsId length)
  | .emitNewTuple dest idx => .inst (.newTuple dest idx)
  | .emitNewEnum dest idx => .inst (.newEnum dest idx)
  | .emitNewStruct dest idx => .inst (.newStruct dest idx)
  | .emitNewTraitObject dest idx src => .inst (.newTraitObject dest idx src)
  | .emitNewLambda dest idx => .inst (.newLambda dest idx)
  | .emitArrayLength dest array => .inst (.arrayLength dest array)
  | .emitStoreArray src array idx => .inst (.storeArray src array idx)
  | .emitLoadArray dest array idx => .inst (.loadArray dest array idx)
  | _ => .silent

def emits (c : Call) : Bool :=
  match c.view with
  | .silent => false
  | _ => true

/-- The operands given to the call are below `2 ^ 32`. -/
def Bounded (c : Call) : Prop :=
  match c.view with
  | .inst i => ∀ value ∈ i.operands, value < 2 ^ 32
  | .const _ _ dest => dest.toUsize < 2 ^ 32
  | .forward f _ => ∀ opnd ∈ f.cond, opnd.toUsize < 2 ^ 32
  | _ => True

theorem view_const {c : Call} {entry : ConstPoolEntry}
    {mk : Register → ConstPoolIdx → BytecodeInstruction} {dest : Register}
    (h : c.view = .const entry mk dest) (idx : ConstPoolIdx) :
    (mk dest idx).operands = [dest.toUsize, idx.toUsize] ∧
      (mk dest idx).opcode.needsPosition = false := by
  cases c <;> simp only [view] at h <;>
    obtain ⟨-, rfl, rfl⟩ := h <;> exact ⟨rfl, rfl⟩

end Call

/-! ## The width of an emission -/

namespace BytecodeInstruction

/-- The width the writer chooses. -/
def width (i : BytecodeInstruction) : OperandWidth :=
  if i.operands.any (· > 255) then .wide else .normal

theorem fits_width {i : BytecodeInstruction} (h : ∀ value ∈ i.operands, value < 2 ^ 32) :
    i.Fits i.width := by
  intro value hv
  unfold width
  split_ifs with hw
  · exact h value hv
  · simp only [any_eq_true, decide_eq_true_eq, not_exists, not_and] at hw
    have := hw value hv
    simp only [OperandWidth.Fits, OperandWidth.size]
    omega

theorem encodeOperands_eq (width : OperandWidth) (i : BytecodeInstruction) :
    i.encodeOperands width = i.operands.flatMap width.encode ++ i.immediate := by
  unfold encodeOperands
  induction i.operands with
  | nil => rfl
  | cons value values ih => rw [foldr_cons, ih, flatMap_cons, append_assoc]

end BytecodeInstruction

namespace Forward

/-- The bytes of the condition. -/
def condBytes (f : Forward) (width : OperandWidth) : List UInt8 :=
  f.cond.toList.flatMap fun opnd => width.encode opnd.toUsize

variable (f : Forward)

theorem encode_immediate (width : OperandWidth) (distance : ℕ) :
    (f.immediate distance).encode width =
      width.marker ++ f.inst.toU8 :: (f.condBytes width ++ width.encode distance) := by
  cases f <;>
    simp [BytecodeInstruction.encode, BytecodeInstruction.encodeOperands_eq, immediate, inst,
      condBytes, cond, BytecodeInstruction.opcode, BytecodeInstruction.operands,
      BytecodeInstruction.immediate]

theorem encode_const (width : OperandWidth) (idx : ConstPoolIdx) :
    (f.const idx).encode width =
      width.marker ++ f.instConst.toU8 :: (f.condBytes width ++ width.encode idx.toUsize) := by
  cases f <;>
    simp [BytecodeInstruction.encode, BytecodeInstruction.encodeOperands_eq, const, instConst,
      condBytes, cond, BytecodeInstruction.opcode, BytecodeInstruction.operands,
      BytecodeInstruction.immediate]

theorem operands_immediate (distance : ℕ) :
    (f.immediate distance).operands = f.cond.toList.map Register.toUsize ++ [distance] := by
  cases f <;> rfl

theorem operands_const (idx : ConstPoolIdx) :
    (f.const idx).operands = f.cond.toList.map Register.toUsize ++ [idx.toUsize] := by
  cases f <;> rfl

end Forward

namespace BytecodeWriter

/-- Append bytes to the code. -/
def append (w : BytecodeWriter) (bytes : List UInt8) : BytecodeWriter :=
  { w with code := w.code ++ bytes }

section

variable (w : BytecodeWriter)
include w

@[simp] theorem append_append (bs cs : List UInt8) :
    (w.append bs).append cs = w.append (bs ++ cs) := by
  simp [append]

theorem append_nil : w.append [] = w := by
  simp [append]

theorem emitU8_eq (value : UInt8) : w.emitU8 value = w.append [value] := rfl

omit w in
/-- The four bytes of `emit_u32` and `patch_u32`. -/
theorem u32_bytes (value : ℕ) :
    [UInt8.ofNat (value &&& 0xFF), UInt8.ofNat ((value >>> 8) &&& 0xFF),
      UInt8.ofNat ((value >>> 16) &&& 0xFF), UInt8.ofNat ((value >>> 24) &&& 0xFF)] =
      Bytes.ofNatLE 4 value := by
  have hand : ∀ n : ℕ, UInt8.ofNat (n &&& 0xFF) = UInt8.ofNat n := by
    intro n
    apply UInt8.toNat_inj.mp
    rw [UInt8.toNat_ofNat', UInt8.toNat_ofNat', show 0xFF = 2 ^ 8 - 1 from rfl,
      Nat.and_two_pow_sub_one_eq_mod, Nat.mod_mod]
  simp only [Bytes.ofNatLE, hand, Nat.shiftRight_eq_div_pow, Nat.div_div_eq_div_mul]

theorem emitU32_eq (value : ℕ) : w.emitU32 value = w.append (Bytes.ofNatLE 4 value) := by
  rw [emitU32, u32_bytes, append]

/-- Opcodes are below 255, so `emit_opcode` never needs its two-byte form. -/
theorem emitOpcode_eq (op : BytecodeOpcode) :
    w.emitOpcode op.toU8.toNat = some (w.append [op.toU8]) := by
  have h := op.toU8_lt
  rw [emitOpcode, if_neg (by omega), UInt8.ofNat_toNat, emitU8_eq]

theorem foldl_emitU8 (values : List ℕ) :
    values.foldl (fun w value => w.emitU8 (UInt8.ofNat value)) w =
      w.append (values.flatMap OperandWidth.normal.encode) := by
  induction values generalizing w with
  | nil => exact w.append_nil.symm
  | cons value values ih =>
    rw [foldl_cons, ih, emitU8_eq, append_append]
    rfl

theorem foldl_emitU32 (values : List ℕ) :
    values.foldl emitU32 w = w.append (values.flatMap OperandWidth.wide.encode) := by
  induction values generalizing w with
  | nil => exact w.append_nil.symm
  | cons value values ih =>
    rw [foldl_cons, ih, emitU32_eq, append_append]
    rfl

end

/-- What `emit_values` does to the position before it emits anything. -/
def settlePosition (w : BytecodeWriter) (op : BytecodeOpcode) : Option BytecodeWriter :=
  if op.needsPosition then w.emitPosition else if w.position.isNone then some w else none

/-- Settling the position changes nothing but the positions, and leaves none pending. -/
theorem settlePosition_spec {w w' : BytecodeWriter} {op : BytecodeOpcode}
    (h : w.settlePosition op = some w') :
    ∃ positions, w' = { w with positions := positions, position := none } := by
  unfold settlePosition at h
  split_ifs at h with hop
  · unfold emitPosition at h
    cases hp : w.position with
    | none => simp [hp] at h
    | some position =>
      simp only [hp, Option.bind_eq_bind, Option.bind_some] at h
      split_ifs at h
      · exact ⟨w.positions, (Option.some.inj h).symm⟩
      · exact ⟨_, (Option.some.inj h).symm⟩
  · cases h
    exact ⟨w.positions, by rw [← Option.isNone_iff_eq_none.mp ‹_›]⟩

variable (w : BytecodeWriter) {i : BytecodeInstruction} {lbl : Label} {c : Call} {f : Forward}

theorem settlePosition_isSome (op : BytecodeOpcode) :
    (w.settlePosition op).isSome ↔ w.position.isSome = op.needsPosition := by
  unfold settlePosition emitPosition
  cases hop : op.needsPosition <;> cases hp : w.position <;> simp
  split_ifs <;> rfl

theorem emitValues_eq (op : BytecodeOpcode) (values : List ℕ) :
    w.emitValues op values = (w.settlePosition op).map fun w =>
      if values.any (· > 255) then
        w.append (OperandWidth.wide.marker ++ op.toU8 :: values.flatMap OperandWidth.wide.encode)
      else
        w.append (op.toU8 :: values.flatMap OperandWidth.normal.encode) := by
  change (w.settlePosition op).bind _ = _
  cases w.settlePosition op with
  | none => rfl
  | some w =>
    simp only [Option.bind_eq_bind, Option.bind_some, emitOpcode_eq,
      foldl_emitU8, foldl_emitU32, emitWide]
    split_ifs <;> simp only [emitU8_eq, append_append] <;> rfl

/-- Emit an instruction: its operands with `emit_values`, then its byte. -/
def emitInstruction (w : BytecodeWriter) (i : BytecodeInstruction) : Option BytecodeWriter := do
  let w ← w.emitValues i.opcode (i.operands.map asU32)
  some (w.append i.immediate)

/-- **The code of an instruction** is its encoding in the width the writer chooses. -/
theorem emitInstruction_eq (h : ∀ value ∈ i.operands, value < 2 ^ 32) :
    w.emitInstruction i = (w.settlePosition i.opcode).map (·.append (i.encode i.width)) := by
  have hmap : i.operands.map asU32 = i.operands := by
    conv_rhs => rw [← map_id i.operands]
    exact map_congr_left fun value hv => asU32_of_lt (h value hv)
  unfold emitInstruction
  rw [hmap, emitValues_eq]
  cases w.settlePosition i.opcode with
  | none => rfl
  | some w =>
    simp only [encode, width, encodeOperands_eq]
    split_ifs <;> simp [OperandWidth.marker]

/-! ## The calls by their views -/

theorem emitInstruction_of_immediate (h : i.immediate = []) :
    w.emitInstruction i = w.emitValues i.opcode (i.operands.map asU32) := by
  unfold emitInstruction
  cases w.emitValues i.opcode (i.operands.map asU32) with
  | none => rfl
  | some w => simp [h, append_nil]

theorem exec_inst (h : c.view = .inst i) : w.exec c = w.emitInstruction i := by
  cases c <;> simp only [Call.view, reduceCtorEq, View.inst.injEq] at h <;> subst h
  all_goals
    first
    | rfl
    | rw [emitInstruction_of_immediate _ rfl]; rfl

theorem exec_const {entry : ConstPoolEntry} {mk : Register → ConstPoolIdx → BytecodeInstruction}
    {dest : Register} (h : c.view = .const entry mk dest) :
    w.exec c = (w.addConst entry).2.emitInstruction (mk dest (w.addConst entry).1) := by
  cases c <;> simp only [Call.view] at h <;>
    obtain ⟨rfl, rfl, rfl⟩ := h <;> rw [emitInstruction_of_immediate _ rfl] <;> rfl

theorem exec_forward (h : c.view = .forward f lbl) :
    w.exec c = (do
      guard (← w.lookupLabel lbl).isNone
      w.emitJmpForward f.inst f.instConst f.cond lbl) := by
  cases c <;> simp only [Call.view] at h <;>
    obtain ⟨rfl, rfl⟩ := h <;> rfl

theorem exec_loop (h : c.view = .loop lbl) : w.exec c = w.emitJumpLoop lbl := by
  cases c <;> simp only [Call.view, reduceCtorEq, View.loop.injEq] at h
  subst h
  rfl

/-! ## Emissions only add -/

/-- The code and the pool of `w'` extend those of `w`, labels stay bound, and jumps through the
pool that were not there before use constants that were not there before. -/
structure Grows (w w' : BytecodeWriter) : Prop where
  code : w.code <+: w'.code
  constPool : w.constPool <+: w'.constPool
  labels : ∀ l t : ℕ, w.labelOffsets[l]? = some (some t) → w'.labelOffsets[l]? = some (some t)
  consts : ∀ j ∈ w'.unresolvedJumpConsts,
    j ∈ w.unresolvedJumpConsts ∨ w.constPool.length ≤ j.2.1.toUsize

theorem Grows.trans {w1 w2 w3 : BytecodeWriter} (h : Grows w1 w2) (h' : Grows w2 w3) :
    Grows w1 w3 where
  code := h.code.trans h'.code
  constPool := h.constPool.trans h'.constPool
  labels l t ht := h'.labels l t (h.labels l t ht)
  consts j hj := by
    rcases h'.consts j hj with hj | hj
    · exact h.consts j hj
    · exact .inr (le_trans h.constPool.length_le hj)

theorem emitValues_append {w w' : BytecodeWriter} {op : BytecodeOpcode} {values : List ℕ}
    (h : w.emitValues op values = some w') :
    ∃ positions bytes, w' =
      { w with positions := positions, position := none, code := w.code ++ bytes } := by
  rw [emitValues_eq, Option.map_eq_some_iff] at h
  obtain ⟨v, hv, h⟩ := h
  obtain ⟨positions, rfl⟩ := settlePosition_spec hv
  split_ifs at h
  · exact ⟨positions, _, h.symm⟩
  · exact ⟨positions, _, h.symm⟩

theorem emitInstruction_append {w w' : BytecodeWriter} (h : w.emitInstruction i = some w') :
    ∃ positions bytes, w' =
      { w with positions := positions, position := none, code := w.code ++ bytes } := by
  obtain ⟨v, hv, h⟩ := Option.bind_eq_some_iff.mp h
  obtain ⟨positions, bytes, rfl⟩ := emitValues_append hv
  refine ⟨positions, bytes ++ i.immediate, ?_⟩
  rw [← Option.some.inj h]
  simp [append]

theorem emitInstruction_grows {w w' : BytecodeWriter} (h : w.emitInstruction i = some w') :
    Grows w w' := by
  obtain ⟨positions, bytes, rfl⟩ := emitInstruction_append h
  exact ⟨prefix_append _ _, prefix_rfl, fun _ _ h => h, fun _ h => .inl h⟩

theorem emitCond_wide (h : ∀ opnd ∈ f.cond, opnd.toUsize < 2 ^ 32) :
    w.emitCond emitU32 f.cond = w.append (f.condBytes .wide) := by
  unfold Forward.condBytes
  cases hc : f.cond with
  | none => exact w.append_nil.symm
  | some opnd =>
    rw [emitCond, asU32_of_lt (h opnd hc), emitU32_eq]
    simp [OperandWidth.encode, OperandWidth.size]

theorem emitCond_normal (h : ∀ opnd ∈ f.cond, opnd.toUsize < 2 ^ 32) :
    w.emitCond (fun w value => w.emitU8 (UInt8.ofNat value)) f.cond =
      w.append (f.condBytes .normal) := by
  unfold Forward.condBytes
  cases hc : f.cond with
  | none => exact w.append_nil.symm
  | some opnd =>
    rw [emitCond, asU32_of_lt (h opnd hc), emitU8_eq]
    simp [OperandWidth.encode, OperandWidth.size, Bytes.ofNatLE]

theorem emitJmpForward_append (inst instConst : BytecodeOpcode) (cond : Option Register)
    (lbl : Label) :
    ∃ bytes offsets consts entries, w.emitJmpForward inst instConst cond lbl = some { w with
          code := w.code ++ bytes
          unresolvedJumpOffsets := offsets
          unresolvedJumpConsts := w.unresolvedJumpConsts ++ consts
          constPool := w.constPool ++ entries } ∧
      ∀ j ∈ consts, j.2.1.toUsize = w.constPool.length := by
  unfold emitJmpForward
  split_ifs
  · cases cond <;> simp [emitOpcode_eq, emitWide, emitU8_eq, emitU32_eq, emitCond, append]
  · cases cond <;> simp [emitOpcode_eq, emitU8_eq, emitCond, append, addConst] <;>
      exact fun _ _ _ _ h _ => congrArg ConstPoolIdx.toUsize h

theorem emitJmpForward_grows {w w' : BytecodeWriter} {inst instConst : BytecodeOpcode}
    {cond : Option Register} (h : w.emitJmpForward inst instConst cond lbl = some w') :
    Grows w w' := by
  obtain ⟨bytes, offsets, consts, entries, heq, hc⟩ :=
    w.emitJmpForward_append inst instConst cond lbl
  obtain rfl := Option.some.inj (heq.symm.trans h)
  refine ⟨prefix_append _ _, prefix_append _ _, fun _ _ h => h, fun j hj => ?_⟩
  exact (mem_append.mp hj).imp_right fun hj => (hc j hj).ge

theorem addConst_grows (entry : ConstPoolEntry) : Grows w (w.addConst entry).2 :=
  ⟨prefix_rfl, prefix_append _ _, fun _ _ h => h, fun _ h => .inl h⟩

theorem emitJumpLoop_eq {w : BytecodeWriter} {t : ℕ} (hl : w.lookupLabel lbl = some (some t))
    (hle : t ≤ w.code.length) :
    w.emitJumpLoop lbl = w.emitInstruction (.jumpLoop (asU32 (w.code.length - t))) := by
  rw [emitInstruction_of_immediate _ rfl]
  simp [emitJumpLoop, hl, hle, emitJmp, operands, opcode, asU32]

section

variable {w w' : BytecodeWriter} {c : Call}

variable {lbl : Label}

theorem emitJumpLoop_some (h : w.emitJumpLoop lbl = some w') :
    ∃ t, w.lookupLabel lbl = some (some t) ∧ t ≤ w.code.length ∧
      w.emitInstruction (.jumpLoop (asU32 (w.code.length - t))) = some w' := by
  have h' := h
  obtain ⟨o, ho, h'⟩ := Option.bind_eq_some_iff.mp h'
  obtain ⟨t, ht, h'⟩ := Option.bind_eq_some_iff.mp h'
  have hl : w.lookupLabel lbl = some (some t) := ho.trans (congrArg some ht)
  have hle := (guard_bind_eq_some.mp h').1
  exact ⟨t, hl, hle, emitJumpLoop_eq hl hle ▸ h⟩

theorem bindLabel_some (h : w.bindLabel lbl = some w') :
    w.lookupLabel lbl = some none ∧
      w' = { w with labelOffsets := w.labelOffsets.set lbl.toUsize (some w.offset) } := by
  obtain ⟨o, ho, h⟩ := Option.bind_eq_some_iff.mp h
  obtain ⟨hn, h⟩ := guard_bind_eq_some.mp h
  exact ⟨ho.trans (congrArg some (Option.isNone_iff_eq_none.mp hn)), (Option.some.inj h).symm⟩

theorem exec_forward_some {f : Forward} (hv : c.view = .forward f lbl)
    (h : w.exec c = some w') :
    w.lookupLabel lbl = some none ∧ w.emitJmpForward f.inst f.instConst f.cond lbl = some w' := by
  rw [exec_forward w hv] at h
  obtain ⟨o, ho, h⟩ := Option.bind_eq_some_iff.mp h
  obtain ⟨hn, h⟩ := guard_bind_eq_some.mp h
  exact ⟨ho.trans (congrArg some (Option.isNone_iff_eq_none.mp hn)), h⟩

/-- The calls that emit nothing only touch the labels, the constants and what is not code. -/
theorem exec_silent (hv : c.view = .silent) (h : w.exec c = some w') :
    w'.code = w.code ∧ w'.unresolvedJumpOffsets = w.unresolvedJumpOffsets ∧
      w'.unresolvedJumpConsts = w.unresolvedJumpConsts ∧ w.constPool <+: w'.constPool := by
  cases c <;> simp only [Call.view, reduceCtorEq] at hv
  case bindLabel lbl =>
    obtain ⟨-, rfl⟩ := bindLabel_some h
    exact ⟨rfl, rfl, rfl, prefix_rfl⟩
  case addConst entry =>
    cases h
    exact ⟨rfl, rfl, rfl, prefix_append _ _⟩
  all_goals
    cases h
    exact ⟨rfl, rfl, rfl, prefix_rfl⟩

section

variable (h : w.exec c = some w')
include h

theorem exec_labels :
    w'.labelOffsets = w.labelOffsets ∨ w'.labelOffsets = w.labelOffsets ++ [none] ∨
      (c = .defineLabel ∧ w'.labelOffsets = w.labelOffsets ++ [some w.offset]) ∨
      ∃ lbl, c = .bindLabel lbl ∧ w.lookupLabel lbl = some none ∧
        w'.labelOffsets = w.labelOffsets.set lbl.toUsize (some w.offset) := by
  cases hv : c.view with
  | silent =>
    cases c <;> simp only [Call.view, reduceCtorEq] at hv
    case bindLabel lbl =>
      obtain ⟨hl, rfl⟩ := bindLabel_some h
      exact .inr (.inr (.inr ⟨lbl, rfl, hl, rfl⟩))
    case createLabel =>
      cases h
      exact .inr (.inl rfl)
    case defineLabel =>
      cases h
      exact .inr (.inr (.inl ⟨rfl, rfl⟩))
    all_goals
      cases h
      exact .inl rfl
  | inst i =>
    obtain ⟨_, _, rfl⟩ := emitInstruction_append (exec_inst w hv ▸ h)
    exact .inl rfl
  | const entry mk dest =>
    obtain ⟨_, _, rfl⟩ := emitInstruction_append (exec_const w hv ▸ h)
    exact .inl rfl
  | forward f lbl =>
    obtain ⟨_, _, _, _, heq, -⟩ := w.emitJmpForward_append f.inst f.instConst f.cond lbl
    obtain rfl := Option.some.inj (heq.symm.trans (exec_forward_some hv h).2)
    exact .inl rfl
  | loop lbl =>
    obtain ⟨_, -, -, h⟩ := emitJumpLoop_some (exec_loop w hv ▸ h)
    obtain ⟨_, _, rfl⟩ := emitInstruction_append h
    exact .inl rfl

/-- A label that is bound after a call was bound before, or the call binds it to the end of the
code. -/
theorem exec_binds {l t : ℕ} (hl : w'.labelOffsets[l]? = some (some t)) :
    w.labelOffsets[l]? = some (some t) ∨
      (t = w.offset ∧ (c = .bindLabel ⟨l⟩ ∨ (c = .defineLabel ∧ l = w.labelOffsets.length))) := by
  rcases exec_labels h with heq | heq | ⟨hc, heq⟩ | ⟨lbl, hc, -, heq⟩
  · exact .inl (heq ▸ hl)
  · rw [heq, List.getElem?_append] at hl
    split_ifs at hl with hlt
    · exact .inl hl
    · simpa using List.mem_of_getElem? hl
  · rw [heq, List.getElem?_append] at hl
    split_ifs at hl with hlt
    · exact .inl hl
    · have hmem := List.mem_of_getElem? hl
      have hzero := (List.getElem?_eq_some_iff.mp hl).1
      simp only [List.length_singleton] at hzero
      exact .inr ⟨by simpa using hmem, .inr ⟨hc, by omega⟩⟩
  · rw [heq, List.getElem?_set] at hl
    split_ifs at hl with hlbl hlt
    · subst hlbl
      exact .inr ⟨by simpa using hl.symm, .inl hc⟩
    · exact .inl hl

theorem exec_keeps_labels {l t : ℕ} (hl : w.labelOffsets[l]? = some (some t)) :
    w'.labelOffsets[l]? = some (some t) := by
  have hlt := (List.getElem?_eq_some_iff.mp hl).1
  rcases exec_labels h with heq | heq | ⟨-, heq⟩ | ⟨lbl, -, hnone, heq⟩
  · rwa [heq]
  · rwa [heq, List.getElem?_append_left hlt]
  · rwa [heq, List.getElem?_append_left hlt]
  · have hne : lbl.toUsize ≠ l := by
      rintro rfl
      exact absurd (hnone.symm.trans hl) (by simp)
    rwa [heq, List.getElem?_set_ne hne]

/-- **A call only adds** to what was emitted. -/
theorem exec_grows : Grows w w' := by
  cases hv : c.view with
  | silent =>
    obtain ⟨hcode, -, hconsts, hpool⟩ := exec_silent hv h
    exact ⟨hcode ▸ prefix_rfl, hpool, fun _ _ => exec_keeps_labels h,
      fun j hj => .inl (hconsts ▸ hj)⟩
  | inst i =>
    rw [exec_inst w hv] at h
    exact emitInstruction_grows h
  | const entry mk dest =>
    rw [exec_const w hv] at h
    exact (w.addConst_grows entry).trans (emitInstruction_grows h)
  | forward f lbl => exact emitJmpForward_grows (exec_forward_some hv h).2
  | loop lbl =>
    rw [exec_loop w hv] at h
    obtain ⟨t, -, -, h⟩ := emitJumpLoop_some h
    exact emitInstruction_grows h

end

end

end BytecodeWriter

end Dora.Bytecode
