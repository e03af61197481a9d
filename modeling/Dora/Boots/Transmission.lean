import Dora.Lib.Codec
import Dora.Boots.Serializer
import Dora.Boots.Deserializer

/-!
# From the serializer to the deserializer

The boots compiler knows only some of the types and constants of the virtual machine, and its
numbers are an `Int32`.

## Main definitions

* `embed`: the function of the compiler that stands for one of the virtual machine, if one does
* `Transmits`: the deserializer gets it from the bytes of the serializer, and stops after the last

## Main results

* `carries_compilationInfo`: short arrays and constants with the expected tags are carried over
* `transmits_iff`: which functions are transmitted
* `not_transmits_float64Function`: one that is not
-/

namespace Dora.Boots

open Bytecode (asU32)
open ByteBuffer ByteReader List SourceType

/-! ## The data that stand for each other -/

/-- The `Int32` of an id or a count. -/
def int32? (n : ℕ) : Option (BitVec 32) := if n < 2 ^ 31 then some (BitVec.ofNat 32 n) else none

theorem int32?_eq_some {n : ℕ} {v : BitVec 32} :
    int32? n = some v ↔ n < 2 ^ 31 ∧ BitVec.ofNat 32 n = v := by
  simp [int32?]

mutual

def embedSourceType : Bytecode.SourceType → Option SourceType
  | .unit => some .unit
  | .bool => some .bool
  | .char => some .char
  | .uint8 => some .uint8
  | .int32 => some .int32
  | .int64 => some .int64
  | .float32 => some .float32
  | .float64 => some .float64
  | .class clsId params => do return .class (← int32? clsId) (← embedSourceTypes params)
  | .struct structId params => do return .struct (← int32? structId) (← embedSourceTypes params)
  | .trait traitId params => do return .trait (← int32? traitId) (← embedSourceTypes params)
  | .tuple subtypes => do return .tuple (← embedSourceTypes subtypes)
  | .typeParam typeParamId => do return .typeParam (← int32? typeParamId)
  | .error | .any | .ptr | .this | .lambda _ _ | .enum _ _ => none

def embedSourceTypes : List Bytecode.SourceType → Option (List SourceType)
  | [] => some []
  | ty :: tys => do return (← embedSourceType ty) :: (← embedSourceTypes tys)

end

def embedBytecodeType : Bytecode.BytecodeType → Option BytecodeType
  | .unit => some .unit
  | .bool => some .bool
  | .uint8 => some .uint8
  | .char => some .char
  | .int32 => some .int32
  | .int64 => some .int64
  | .float32 => some .float32
  | .float64 => some .float64
  | .ptr => some .ptr
  | .tuple subtypes => do return .tuple (← embedSourceTypes subtypes)
  | .typeParam typeParamId => do return .typeParam (← int32? typeParamId)
  | .struct structId params => do return .struct (← int32? structId) (← embedSourceTypes params)
  | .enum _ _ | .class _ _ | .trait _ _ | .lambda _ _ => none

def embedConstPoolEntry : Bytecode.ConstPoolEntry → Option ConstPoolEntry
  | .string value => some (.string value)
  | .float32 value => some (.float32 value)
  | .float64 value => some (.float64 value)
  | .int32 value => some (.int32 value)
  | .int64 value => some (.int64 value)
  | .char value => some (.char (BitVec.ofNat 32 value.toNat))
  | _ => none

def embedInstructionSet : InstructionSet → Architecture
  | .x64 => .x64
  | .arm64 => .arm64

/-- The compilation info that stands for a function, its type parameters and its target. -/
def embed (fct : Bytecode.BytecodeFunction) (typeParams : List Bytecode.SourceType)
    (architecture : InstructionSet) : Option CompilationInfo := do
  let constPool ← fct.constPool.mapM embedConstPoolEntry
  let registers ← fct.registers.mapM embedBytecodeType
  let arguments ← int32? fct.arguments
  let typeParams ← embedSourceTypes typeParams
  return ⟨⟨fct.code, constPool, registers, arguments⟩, typeParams, embedInstructionSet architecture⟩

/-- **The function is transmitted**: the serializer writes bytes from which the deserializer gets
the data that stand for the function, and it consumes all of them. -/
def Transmits (fct : Bytecode.BytecodeFunction) (typeParams : List Bytecode.SourceType)
    (architecture : InstructionSet) : Prop :=
  ∃ bytes info depth reader, encodedCompilationInfo fct typeParams architecture = some bytes ∧
    embed fct typeParams architecture = some info ∧
    decodeCompilationInfo depth (.new bytes) = some (info, reader) ∧ reader.idx = bytes.length

/-! ## What the transmission needs -/

/-- The number of elements of an array is not negative as an `Int32`. -/
def ShortList {α : Type} (xs : List α) : Prop := xs.length < 2 ^ 31

mutual

/-- All arrays in a type are short. -/
def SourceType.Short : SourceType → Prop
  | .class _ typeParams | .struct _ typeParams | .trait _ typeParams | .tuple typeParams =>
    ShortList typeParams ∧ AllShort typeParams
  | _ => True

def SourceType.AllShort : List SourceType → Prop
  | [] => True
  | ty :: tys => ty.Short ∧ AllShort tys

end

theorem SourceType.allShort_iff {tys : List SourceType} : AllShort tys ↔ ∀ ty ∈ tys, ty.Short := by
  induction tys with
  | nil => simp [AllShort]
  | cons ty tys ih => simp [AllShort, ih]

/-- An array of types is short, and so are the arrays in them. -/
def ShortTypes (tys : List SourceType) : Prop := ShortList tys ∧ AllShort tys

def BytecodeType.Short : BytecodeType → Prop
  | .struct _ typeParams | .tuple typeParams => ShortTypes typeParams
  | _ => True

/-- All arrays of a function are short. -/
structure CompilationInfo.Short (info : CompilationInfo) : Prop where
  code : ShortList info.bc.code
  constPool : ShortList info.bc.constPool
  registers : ShortList info.bc.registers
  registerTypes : ∀ ty ∈ info.bc.registers, ty.Short
  typeParams : ShortTypes info.typeParams

/-- The constants whose tag is the one that the deserializer expects. -/
def ConstPoolEntry.Plain : ConstPoolEntry → Prop
  | .string _ | .float64 _ => False
  | _ => True

/-! ## Numbers and arrays -/

theorem reads_readUInt8 (b : UInt8) : Reads () readUInt8 [b] b := by
  intro r rest _ hr
  have hb : r.array[r.idx]? = some b := by
    have hr' : r.array.drop r.idx = b :: rest := hr
    rw [← head?_drop, hr', head?_cons]
  simp [readUInt8, hb, Cursor.advance]

theorem reads_readInt32 (n : ℕ) : Reads () readInt32 (Bytes.ofNatLE 4 n) (BitVec.ofNat 32 n) := by
  rw [← Bytes.orLE_ofNatLE 4 n]
  refine Reads.congr ((reads_readUInt8 _).bind ((reads_readUInt8 _).bind
    ((reads_readUInt8 _).bind ((reads_readUInt8 _).bind (Reads.pure () _))))) rfl ?_
  simp [Bytes.orLE, Bytes.ofNatLE]

theorem reads_readInt64 (n : ℕ) : Reads () readInt64 (Bytes.ofNatLE 8 n) (BitVec.ofNat 64 n) := by
  rw [← Bytes.orLE_ofNatLE 8 n]
  refine Reads.congr ((reads_readUInt8 _).bind ((reads_readUInt8 _).bind
    ((reads_readUInt8 _).bind ((reads_readUInt8 _).bind ((reads_readUInt8 _).bind
    ((reads_readUInt8 _).bind ((reads_readUInt8 _).bind ((reads_readUInt8 _).bind
    (Reads.pure () _))))))))) rfl ?_
  simp [Bytes.orLE, Bytes.ofNatLE]

/-- A length that is not negative as an `Int32` is the number of elements that are read. -/
theorem readArray_ofNat {α : Type} {read : DecodeM α} {n : ℕ} (hn : n < 2 ^ 31) :
    readArray read (BitVec.ofNat 32 (asU32 n)) = readMany read n := by
  have hsize : (BitVec.ofNat 32 n).toNat = n := by
    exact Nat.mod_eq_of_lt (by omega)
  have hpos : 0 ≤ (BitVec.ofNat 32 n).toInt := by
    rw [BitVec.toInt_eq_toNat_cond, hsize]
    split <;> omega
  rw [Bytecode.asU32_of_lt (by omega)]
  simp [readArray, guard, hpos, hsize]

section

variable {P : Prop}

theorem carries_emitU8 (b : UInt8) : Carries () P (emitU8 b) (fun _ => readUInt8) b :=
  .of_reads (.modify [b]) (reads_readUInt8 b)

theorem carries_emitU32 (n : ℕ) :
    Carries () P (emitU32 n) (fun _ => readInt32) (BitVec.ofNat 32 n) :=
  .of_reads (.modify _) (reads_readInt32 n)

theorem carries_emitU64 (n : ℕ) :
    Carries () P (emitU64 n) (fun _ => readInt64) (BitVec.ofNat 64 n) :=
  .of_reads (.modify _) (reads_readInt64 n)

theorem carries_emitId {n : ℕ} {v : BitVec 32} (h : int32? n = some v) :
    Carries () P (emitId n) (fun _ => readId) v := by
  obtain ⟨hn, rfl⟩ := int32?_eq_some.mp h
  have he : emitId n = emitU32 n := by
    have hle : n ≤ 2 ^ 31 - 1 := by omega
    rw [emitId, guard, if_pos hle, pure_bind, Bytecode.asU32_of_lt (by omega)]
  rw [he]
  exact carries_emitU32 n

theorem carries_array {α : Type} {enc : EncodeM} {dec : ℕ → DecodeM α} {n : ℕ} {as : List α}
    (hlen : as.length = n) (hP : P → ShortList as)
    (h : Carries () P enc (fun depth => readMany (dec depth) n) as) :
    Carries () P (emitU32 (asU32 n) >>= fun _ => enc) (fun depth => decodeArrayOf (dec depth))
      as := by
  obtain ⟨bs, hw, hr⟩ := h
  refine ⟨_, (Writes.modify _).bind hw, fun hp depth hd => ?_⟩
  rw [length_append] at hd
  refine (reads_readInt32 (asU32 n)).bind ?_
  rw [readArray_ofNat (hlen ▸ hP hp)]
  exact hr hp depth (by omega)

end

/-! ## Types -/

variable {P : Prop}

theorem carries_leaf {b : UInt8} {ty : SourceType}
    (h : ∀ depth, Reads () (decodeSourceType (depth + 1)) [b] ty) :
    Carries () P (emitU8 b) decodeSourceType ty := by
  refine ⟨[b], .modify [b], fun _ depth hd => ?_⟩
  rw [length_singleton] at hd
  obtain ⟨depth, rfl⟩ : ∃ d, depth = d + 1 := ⟨depth - 1, by omega⟩
  exact h depth

theorem carries_typeArray {tys : List Bytecode.SourceType} {tys' : List SourceType}
    (h : tys'.length = tys.length ∧ Carries () (AllShort tys') (encodeSourceTypes tys)
      (fun depth => readMany (decodeSourceType depth) tys.length) tys') :
    Carries () (ShortTypes tys') (encodeSourceTypeArray tys) decodeSourceTypeArray tys' :=
  carries_array h.1 And.left (h.2.mono And.right)

/-- An id with an array of types behind it: a class, a struct or a trait with its arguments. -/
theorem carries_instance {α : Type} {id : ℕ} {id' : BitVec 32} {params : List Bytecode.SourceType}
    {params' : List SourceType} (mk : BitVec 32 → List SourceType → α) (hid : int32? id = some id')
    (h : Carries () (ShortTypes params') (encodeSourceTypeArray params) decodeSourceTypeArray
      params') :
    Carries () (ShortTypes params') (emitId id >>= fun _ => encodeSourceTypeArray params)
      (fun depth => do return mk (← readId) (← decodeSourceTypeArray depth)) (mk id' params') :=
  (carries_emitId hid).bind (h.map fun _ => rfl)

mutual

/-- **Types are carried over**, at every depth of nesting. -/
theorem carries_sourceType : ∀ {ty : Bytecode.SourceType} {ty' : SourceType},
    embedSourceType ty = some ty' →
    Carries () ty'.Short (encodeSourceType ty) decodeSourceType ty'
  | .unit, _, h | .bool, _, h | .char, _, h | .uint8, _, h | .int32, _, h | .int64, _, h
  | .float32, _, h | .float64, _, h => by
    cases h
    exact carries_leaf fun _ => (reads_readUInt8 _).bind (.pure () _)
  | .class id params, _, h | .struct id params, _, h | .trait id params, _, h => by
    obtain ⟨id', hid, h⟩ := Option.bind_eq_some_iff.mp h
    obtain ⟨params', hparams, h⟩ := Option.bind_eq_some_iff.mp h
    cases h
    have hps := carries_typeArray (carries_sourceTypes hparams)
    exact .deeper (.modify _) (carries_instance _ hid hps)
      fun _ _ hr => (reads_readUInt8 _).bind hr
  | .tuple subtypes, _, h => by
    obtain ⟨subtypes', hsubtypes, h⟩ := Option.bind_eq_some_iff.mp h
    cases h
    have hps := carries_typeArray (carries_sourceTypes hsubtypes)
    exact .deeper (.modify _) (hps.map fun _ => rfl) fun _ _ hr => (reads_readUInt8 _).bind hr
  | .typeParam id, _, h => by
    obtain ⟨id', hid, h⟩ := Option.bind_eq_some_iff.mp h
    cases h
    exact .deeper (.modify _) ((carries_emitId hid).map fun _ => rfl)
      fun _ _ hr => (reads_readUInt8 _).bind hr
  | .error, _, h | .any, _, h | .ptr, _, h | .this, _, h | .lambda _ _, _, h
  | .enum _ _, _, h => by cases h

theorem carries_sourceTypes : ∀ {tys : List Bytecode.SourceType} {tys' : List SourceType},
    embedSourceTypes tys = some tys' → tys'.length = tys.length ∧
    Carries () (AllShort tys') (encodeSourceTypes tys)
      (fun depth => readMany (decodeSourceType depth) tys.length) tys'
  | [], _, h => by
    cases h
    exact ⟨rfl, Carries.readMany_nil⟩
  | ty :: tys, _, h => by
    obtain ⟨ty', hty, h⟩ := Option.bind_eq_some_iff.mp h
    obtain ⟨tys', htys, h⟩ := Option.bind_eq_some_iff.mp h
    cases h
    obtain ⟨hlen, hs⟩ := carries_sourceTypes htys
    refine ⟨by rw [length_cons, hlen, length_cons], ?_⟩
    exact ((carries_sourceType hty).mono fun hq => hq.1).readMany_cons (hs.mono fun hq => hq.2)

end

theorem carries_bytecodeType {ty : Bytecode.BytecodeType} {ty' : BytecodeType}
    (h : embedBytecodeType ty = some ty') :
    Carries () ty'.Short (encodeBytecodeType ty) decodeBytecodeType ty' := by
  cases ty with
  | unit | bool | uint8 | char | int32 | int64 | float32 | float64 | ptr =>
    cases h
    exact (carries_emitU8 _).map fun _ => rfl
  | tuple subtypes =>
    obtain ⟨subtypes', hsubtypes, h⟩ := Option.bind_eq_some_iff.mp h
    cases h
    have hps := carries_typeArray (carries_sourceTypes hsubtypes)
    exact (carries_emitU8 _).bind (hps.map fun _ => rfl)
  | typeParam id =>
    obtain ⟨id', hid, h⟩ := Option.bind_eq_some_iff.mp h
    cases h
    exact (carries_emitU8 _).bind ((carries_emitId hid).map fun _ => rfl)
  | struct id params =>
    obtain ⟨id', hid, h⟩ := Option.bind_eq_some_iff.mp h
    obtain ⟨params', hparams, h⟩ := Option.bind_eq_some_iff.mp h
    cases h
    have hps := carries_typeArray (carries_sourceTypes hparams)
    exact (carries_emitU8 _).bind (carries_instance BytecodeType.struct hid hps)
  | enum | «class» | trait | lambda => cases h

/-! ## Constants -/

theorem writes_forM_emitU8 (bs : List UInt8) : Writes (bs.forM emitU8) bs := by
  induction bs with
  | nil => exact Writes.pure
  | cons b bs ih => exact (Writes.modify [b]).bind ih

/-- The constants are carried over, if their tag is the one that the deserializer expects. -/
theorem carries_constPoolEntry {e : Bytecode.ConstPoolEntry} {e' : ConstPoolEntry}
    (h : embedConstPoolEntry e = some e') :
    Carries () e'.Plain (encodeConstpoolEntry e) (fun _ => decodeConstPoolEntry) e' := by
  cases e with
  | string value =>
    cases h
    exact ⟨_, (Writes.modify _).bind ((Writes.modify _).bind (writes_forM_emitU8 _)), False.elim⟩
  | float64 value =>
    cases h
    exact ⟨_, (Writes.modify _).bind (Writes.modify _), False.elim⟩
  | float32 value | int32 value =>
    cases h
    refine (carries_emitU8 _).bind ((carries_emitU32 value.toNat).map fun _ => ?_)
    rw [BitVec.ofNat_toNat, BitVec.setWidth_eq]
  | int64 value =>
    cases h
    refine (carries_emitU8 _).bind ((carries_emitU64 value.toNat).map fun _ => ?_)
    rw [BitVec.ofNat_toNat, BitVec.setWidth_eq]
  | char value =>
    cases h
    exact (carries_emitU8 _).bind ((carries_emitU32 value.toNat).map fun _ => rfl)
  | _ => cases h

/-! ## Functions -/

theorem carries_code {code : List UInt8} (hP : P → ShortList code) :
    Carries () P (emitU32 (asU32 code.length) >>= fun _ => code.forM emitU8)
      (fun _ => decodeBytecodeArray) code := by
  have h : Carries () P (code.forM emitU8) (fun _ => readMany readUInt8 code.length) code := by
    refine ⟨code, writes_forM_emitU8 code, fun _ _ _ => ?_⟩
    simpa using reads_readMany (fun b => [b]) id code fun b _ => reads_readUInt8 b
  exact carries_array rfl hP h

theorem embedInstructionSet_carries (architecture : InstructionSet) :
    Carries () P (encodeArchitecture architecture) (fun _ => decodeArchitecture)
      (embedInstructionSet architecture) := by
  cases architecture <;> exact (carries_emitU8 _).map fun _ => rfl

variable {typeParams : List Bytecode.SourceType} {fct : Bytecode.BytecodeFunction}
  {architecture : InstructionSet} {info : CompilationInfo}

theorem embed_parts (h : embed fct typeParams architecture = some info) : info.bc.code = fct.code ∧
      fct.constPool.mapM embedConstPoolEntry = some info.bc.constPool ∧
      fct.registers.mapM embedBytecodeType = some info.bc.registers ∧
      int32? fct.arguments = some info.bc.arguments ∧
      embedSourceTypes typeParams = some info.typeParams ∧
      info.arch = embedInstructionSet architecture := by
  obtain ⟨constPool, hpool, h⟩ := Option.bind_eq_some_iff.mp h
  obtain ⟨registers, hregs, h⟩ := Option.bind_eq_some_iff.mp h
  obtain ⟨arguments, hargs, h⟩ := Option.bind_eq_some_iff.mp h
  obtain ⟨typeParams', htps, h⟩ := Option.bind_eq_some_iff.mp h
  cases h
  exact ⟨rfl, hpool, hregs, hargs, htps, rfl⟩

section

variable {fct : Bytecode.BytecodeFunction} {typeParams : List Bytecode.SourceType}
variable {architecture : InstructionSet} {info : CompilationInfo}

section

variable (h : embed fct typeParams architecture = some info)
include h

theorem carries_constPool :
    Carries () (ShortList info.bc.constPool ∧ ∀ e ∈ info.bc.constPool, e.Plain)
      (encodeConstpoolArray fct) (fun _ => decodeConstPool) info.bc.constPool := by
  obtain ⟨-, hpool, -⟩ := embed_parts h
  obtain ⟨hlen, hs⟩ := carries_forM (fun _ _ => carries_constPoolEntry) hpool
  exact carries_array hlen And.left (hs.mono And.right)

theorem carries_registers :
    Carries () info.Short (encodeRegistersArray fct >>= fun _ => emitU32 fct.arguments)
      (fun depth => do
        let registers ← decodeRegisters depth
        let arguments ← readInt32
        pure ⟨fct.code, info.bc.constPool, registers, arguments⟩) info.bc := by
  obtain ⟨hcode, -, hregs, hargs, -⟩ := embed_parts h
  obtain ⟨hlen, hs⟩ := carries_forM (fun _ _ => carries_bytecodeType) hregs
  have hr : Carries () info.Short (encodeRegistersArray fct) decodeRegisters info.bc.registers :=
    carries_array hlen (fun hshort => hshort.registers) (hs.mono fun hshort => hshort.registerTypes)
  obtain ⟨-, hargs⟩ := int32?_eq_some.mp hargs
  refine hr.bind ((carries_emitU32 fct.arguments).map fun _ => ?_)
  rw [hargs, ← hcode]

theorem carries_rest :
    Carries () info.Short (encodeTypeParams typeParams >>= fun _ => encodeArchitecture architecture)
      (fun depth => do
        let typeParams ← decodeTypeParams depth
        let arch ← decodeArchitecture
        pure ⟨info.bc, typeParams, arch⟩) info := by
  obtain ⟨-, -, -, -, htps, harch⟩ := embed_parts h
  have ht := carries_typeArray (carries_sourceTypes htps)
  refine (ht.mono fun hshort => hshort.typeParams).bind
    ((embedInstructionSet_carries architecture).map fun _ => ?_)
  rw [← harch]

/-- **A function is carried over** if its arrays are short and its constants have the tags that
the deserializer expects. -/
theorem carries_compilationInfo :
    Carries () (info.Short ∧ ∀ e ∈ info.bc.constPool, e.Plain)
      (encodeCompilationInfo fct typeParams architecture) decodeCompilationInfo info := by
  have hcode : Carries () (info.Short ∧ ∀ e ∈ info.bc.constPool, e.Plain)
      (encodeBytecodeArray fct) (fun _ => decodeBytecodeArray) fct.code :=
    carries_code fun hq => (embed_parts h).1 ▸ hq.1.code
  have hfct : Carries () (info.Short ∧ ∀ e ∈ info.bc.constPool, e.Plain)
      (encodeBytecodeFunction fct) decodeBytecodeFunction info.bc :=
    hcode.bind (((carries_constPool h).mono fun hq => ⟨hq.1.constPool, hq.2⟩).bind
      ((carries_registers h).mono And.left))
  exact hfct.bind ((carries_rest h).mono And.left)

end

end

/-! ## What was decoded -/

section

variable {s s' : ByteReader} {depth : ℕ}

/-- A decoded array is short, and what holds of each decoded element holds of its elements. -/
theorem decodeArrayOf_spec {α : Type} {dec : DecodeM α} {Q : α → Prop}
    (hdec : ∀ s a s', dec s = some (a, s') → Q a) {as : List α}
    (h : decodeArrayOf dec s = some (as, s')) : ShortList as ∧ ∀ a ∈ as, Q a := by
  obtain ⟨size, s1, -, h⟩ := bind_eq_some.mp h
  obtain ⟨_, s2, hguard, h⟩ := bind_eq_some.mp h
  have hpos : 0 ≤ size.toInt := by
    by_contra hneg
    simp [guard, hneg] at hguard
  obtain ⟨hlen, hall⟩ := readMany_spec hdec h
  refine ⟨?_, hall⟩
  rw [BitVec.toInt_eq_toNat_cond] at hpos
  rw [ShortList, hlen]
  split at hpos <;> omega

theorem shortTypes_of_decode (hdec : ∀ s ty s', decodeSourceType depth s = some (ty, s') → ty.Short)
    {tys : List SourceType} (h : decodeSourceTypeArray depth s = some (tys, s')) :
    ShortTypes tys := by
  obtain ⟨hlen, hall⟩ := decodeArrayOf_spec hdec h
  exact ⟨hlen, allShort_iff.mpr hall⟩

theorem decodeSourceType_short {ty : SourceType} (h : decodeSourceType depth s = some (ty, s')) :
    ty.Short := by
  induction depth generalizing s s' ty with
  | zero => cases h
  | succ depth ih =>
    have harray {s s' tys} (h : decodeSourceTypeArray depth s = some (tys, s')) :
        ShortTypes tys := shortTypes_of_decode (fun _ _ _ => ih) h
    obtain ⟨b, s1, -, h⟩ := bind_eq_some.mp h
    -- one case for each tag, in the order of the tests
    iterate 8
      rcases ite_eq_some.mp h with ⟨-, h⟩ | ⟨-, h⟩
      · obtain ⟨rfl, -⟩ := pure_eq_some.mp h
        exact trivial
    iterate 3
      rcases ite_eq_some.mp h with ⟨-, h⟩ | ⟨-, h⟩
      · obtain ⟨id, s2, -, h⟩ := bind_eq_some.mp h
        obtain ⟨tys, s3, htys, h⟩ := bind_eq_some.mp h
        obtain ⟨rfl, -⟩ := pure_eq_some.mp h
        exact harray htys
    rcases ite_eq_some.mp h with ⟨-, h⟩ | ⟨-, h⟩
    · obtain ⟨tys, s3, htys, h⟩ := bind_eq_some.mp h
      obtain ⟨rfl, -⟩ := pure_eq_some.mp h
      exact harray htys
    rcases ite_eq_some.mp h with ⟨-, h⟩ | ⟨-, h⟩
    · obtain ⟨id, s2, -, h⟩ := bind_eq_some.mp h
      obtain ⟨rfl, -⟩ := pure_eq_some.mp h
      exact trivial
    · cases h

theorem decodeSourceTypeArray_short {tys : List SourceType}
    (h : decodeSourceTypeArray depth s = some (tys, s')) : ShortTypes tys :=
  shortTypes_of_decode (fun _ _ _ => decodeSourceType_short) h

theorem decodeBytecodeType_short {ty : BytecodeType}
    (h : decodeBytecodeType depth s = some (ty, s')) : ty.Short := by
  obtain ⟨b, s1, -, h⟩ := bind_eq_some.mp h
  iterate 9
    rcases ite_eq_some.mp h with ⟨-, h⟩ | ⟨-, h⟩
    · obtain ⟨rfl, -⟩ := pure_eq_some.mp h
      exact trivial
  rcases ite_eq_some.mp h with ⟨-, h⟩ | ⟨-, h⟩
  · obtain ⟨id, s2, -, h⟩ := bind_eq_some.mp h
    obtain ⟨tys, s3, htys, h⟩ := bind_eq_some.mp h
    obtain ⟨rfl, -⟩ := pure_eq_some.mp h
    exact decodeSourceTypeArray_short htys
  rcases ite_eq_some.mp h with ⟨-, h⟩ | ⟨-, h⟩
  · obtain ⟨tys, s3, htys, h⟩ := bind_eq_some.mp h
    obtain ⟨rfl, -⟩ := pure_eq_some.mp h
    exact decodeSourceTypeArray_short htys
  rcases ite_eq_some.mp h with ⟨-, h⟩ | ⟨-, h⟩
  · obtain ⟨id, s2, -, h⟩ := bind_eq_some.mp h
    obtain ⟨rfl, -⟩ := pure_eq_some.mp h
    exact trivial
  · cases h

/-- **Every decoded array is short**: its length was read as an `Int32`. -/
theorem decodeCompilationInfo_short {info : CompilationInfo}
    (h : decodeCompilationInfo depth s = some (info, s')) : info.Short := by
  obtain ⟨bc, s1, hbc, h⟩ := bind_eq_some.mp h
  obtain ⟨typeParams, s2, htps, h⟩ := bind_eq_some.mp h
  obtain ⟨arch, s3, -, h⟩ := bind_eq_some.mp h
  obtain ⟨rfl, -⟩ := pure_eq_some.mp h
  obtain ⟨code, s4, hcode, hbc⟩ := bind_eq_some.mp hbc
  obtain ⟨constPool, s5, hpool, hbc⟩ := bind_eq_some.mp hbc
  obtain ⟨registers, s6, hregs, hbc⟩ := bind_eq_some.mp hbc
  obtain ⟨arguments, s7, -, hbc⟩ := bind_eq_some.mp hbc
  obtain ⟨rfl, -⟩ := pure_eq_some.mp hbc
  have hcode' : ShortList code := (decodeArrayOf_spec (fun _ _ _ _ => trivial) hcode).1
  have hpool' : ShortList constPool := (decodeArrayOf_spec (fun _ _ _ _ => trivial) hpool).1
  obtain ⟨hregs', htypes⟩ := decodeArrayOf_spec (fun _ _ _ => decodeBytecodeType_short) hregs
  exact ⟨hcode', hpool', hregs', htypes, decodeSourceTypeArray_short htps⟩

/-- The tag of a `Float32` stands before every constant that is not plain. -/
theorem writes_of_not_plain {e : Bytecode.ConstPoolEntry} {e' : ConstPoolEntry}
    (h : embedConstPoolEntry e = some e') (hp : ¬e'.Plain) :
    ∃ bs, Writes (encodeConstpoolEntry e) (ConstPoolOpcode.float32.toU8 :: bs) := by
  cases e with
  | string value => exact ⟨_, (Writes.modify _).bind
      ((Writes.modify _).bind (writes_forM_emitU8 _))⟩
  | float64 value => exact ⟨_, (Writes.modify _).bind (Writes.modify _)⟩
  | float32 | int32 | int64 | char =>
    cases h
    exact absurd trivial hp
  | _ => cases h

/-- Behind the tag of a `Float32`, the deserializer reads a `Float32`. -/
theorem plain_of_decode_float32 {rest : List UInt8} {e : ConstPoolEntry}
    (hs : Cursor.remaining s = ConstPoolOpcode.float32.toU8 :: rest)
    (h : decodeConstPoolEntry s = some (e, s')) : e.Plain := by
  obtain ⟨b, s1, hb, h⟩ := bind_eq_some.mp h
  obtain ⟨rfl, rfl⟩ := (reads_readUInt8 _).unique rfl hs hb
  obtain ⟨value, s2, -, h⟩ := bind_eq_some.mp h
  obtain ⟨rfl, -⟩ := pure_eq_some.mp h
  exact trivial

end

/-- **The first constant that is not plain is lost**: what is decoded in its place is plain. -/
theorem plain_of_readMany {pool : List Bytecode.ConstPoolEntry} {pool' : List ConstPoolEntry}
    (hpool : pool.mapM embedConstPoolEntry = some pool') :
    ∃ bs, Writes (pool.forM encodeConstpoolEntry) bs ∧ ∀ s rest s',
      Cursor.remaining s = bs ++ rest →
      readMany decodeConstPoolEntry pool.length s = some (pool', s') → ∀ e ∈ pool', e.Plain := by
  induction pool generalizing pool' with
  | nil =>
    obtain rfl : [] = pool' := by simpa using hpool
    exact ⟨[], Writes.pure, by simp⟩
  | cons e pool ih =>
    rw [mapM_cons] at hpool
    obtain ⟨e', he, hpool⟩ := Option.bind_eq_some_iff.mp hpool
    obtain ⟨pool'', hpool'', hpool⟩ := Option.bind_eq_some_iff.mp hpool
    obtain rfl : e' :: pool'' = pool' := Option.some.inj hpool
    obtain ⟨bs, hbs, hrest⟩ := ih hpool''
    by_cases hp : e'.Plain
    · -- a plain constant is read back, and the rest of the pool stands behind it
      obtain ⟨cs, hcs, hread⟩ := carries_constPoolEntry he
      refine ⟨cs ++ bs, hcs.bind hbs, fun s rest s' hs h => ?_⟩
      rw [append_assoc] at hs
      obtain ⟨a, s1, ha, h⟩ := bind_eq_some.mp h
      obtain ⟨rfl, rfl⟩ := (hread hp _ le_rfl).unique rfl hs ha
      obtain ⟨as, s2, has, h⟩ := bind_eq_some.mp h
      obtain ⟨hcons, rfl⟩ := pure_eq_some.mp h
      obtain rfl := (List.cons.inj hcons).2
      refine forall_mem_cons.mpr ⟨hp, hrest _ rest s2 ?_ has⟩
      rw [Cursor.remaining_advance, hs, drop_left]
    · -- otherwise a `Float32` is decoded in its place
      obtain ⟨cs, hcs⟩ := writes_of_not_plain he hp
      refine ⟨_ :: cs ++ bs, hcs.bind hbs, fun s rest s' hs h => ?_⟩
      obtain ⟨a, s1, ha, h⟩ := bind_eq_some.mp h
      obtain ⟨as, s2, has, h⟩ := bind_eq_some.mp h
      obtain ⟨hcons, -⟩ := pure_eq_some.mp h
      obtain rfl := (List.cons.inj hcons).1
      exact absurd (plain_of_decode_float32 hs ha) hp

/-- What the serializer writes for the constants of a function is read back only if they are all
plain. -/
theorem plain_of_decodeConstPool (hemb : embed fct typeParams architecture = some info)
    (hshort : info.Short) :
    ∃ bs, Writes (encodeConstpoolArray fct) bs ∧ ∀ s rest s', Cursor.remaining s = bs ++ rest →
      decodeConstPool s = some (info.bc.constPool, s') → ∀ e ∈ info.bc.constPool, e.Plain := by
  obtain ⟨-, hpool, -⟩ := embed_parts hemb
  obtain ⟨hlen, -⟩ := carries_forM (fun _ _ => carries_constPoolEntry) hpool
  have hn : fct.constPool.length < 2 ^ 31 := hlen ▸ hshort.constPool
  obtain ⟨bs, hbs, hplain⟩ := plain_of_readMany hpool
  refine ⟨_, (Writes.modify _).bind hbs, fun s rest s' hs h => ?_⟩
  rw [append_assoc] at hs
  obtain ⟨size, s1, hsize, h⟩ := bind_eq_some.mp h
  obtain ⟨rfl, rfl⟩ := (reads_readInt32 _).unique rfl hs hsize
  rw [readArray_ofNat hn] at h
  refine hplain _ rest s' ?_ h
  rw [Cursor.remaining_advance, hs, drop_left]

/-- The transmission of a function needs plain constants: the first one that is not would come
back as another one. -/
theorem plain_of_decode {bytes : ByteBuffer} {depth : ℕ} {reader : ByteReader}
    (henc : encodedCompilationInfo fct typeParams architecture = some bytes)
    (hemb : embed fct typeParams architecture = some info)
    (hdec : decodeCompilationInfo depth (.new bytes) = some (info, reader)) :
    ∀ e ∈ info.bc.constPool, e.Plain := by
  have hshort := decodeCompilationInfo_short hdec
  -- the bytes are those of the code, of the constants and of what comes behind
  obtain ⟨cs, hcs, hcode⟩ : Carries () True (encodeBytecodeArray fct) (fun _ => decodeBytecodeArray)
    fct.code := carries_code fun _ => (embed_parts hemb).1 ▸ hshort.code
  obtain ⟨ps, hps, hplain⟩ := plain_of_decodeConstPool hemb hshort
  obtain ⟨rs, hrs, -⟩ := carries_registers hemb
  obtain ⟨ts, hts, -⟩ := carries_rest hemb
  have hfct : Writes (encodeBytecodeFunction fct) (cs ++ (ps ++ rs)) := hcs.bind (hps.bind hrs)
  have hinfo : Writes (encodeCompilationInfo fct typeParams architecture)
      (cs ++ (ps ++ rs) ++ ts) := hfct.bind hts
  rw [encodedCompilationInfo, hinfo []] at henc
  cases henc
  -- the code is read back, and then the constants are decoded
  obtain ⟨bc, s1, hbc, h⟩ := bind_eq_some.mp hdec
  obtain ⟨_, s2, -, h⟩ := bind_eq_some.mp h
  obtain ⟨_, s3, -, h⟩ := bind_eq_some.mp h
  obtain ⟨rfl, -⟩ := pure_eq_some.mp h
  obtain ⟨code, s4, hc, hbc⟩ := bind_eq_some.mp hbc
  have hnew : Cursor.remaining (ByteReader.new ([] ++ (cs ++ (ps ++ rs) ++ ts))) =
      cs ++ (ps ++ (rs ++ ts)) := by simp [ByteReader.new, Cursor.remaining]
  obtain ⟨rfl, rfl⟩ := (hcode trivial _ le_rfl).unique rfl hnew hc
  obtain ⟨constPool, s5, hpool, hbc⟩ := bind_eq_some.mp hbc
  obtain ⟨_, s6, -, hbc⟩ := bind_eq_some.mp hbc
  obtain ⟨_, s7, -, hbc⟩ := bind_eq_some.mp hbc
  obtain ⟨rfl, -⟩ := pure_eq_some.mp hbc
  refine hplain _ (rs ++ ts) s5 ?_ hpool
  rw [Cursor.remaining_advance, hnew, drop_left]

/-- **The transmission of functions**: the serializer writes bytes from which the deserializer
gets the same code, constants, registers, number of arguments, type parameters and architecture,
and all the bytes are consumed, exactly if the compiler has data that stand for the function, all
arrays are shorter than `2 ^ 31` and no constant is a string or a `Float64`. -/
theorem transmits_iff (fct : Bytecode.BytecodeFunction) (typeParams : List Bytecode.SourceType)
    (architecture : InstructionSet) :
    Transmits fct typeParams architecture ↔
      ∃ info, embed fct typeParams architecture = some info ∧ info.Short ∧
        ∀ e ∈ info.bc.constPool, e.Plain := by
  constructor
  · rintro ⟨bytes, info, depth, reader, henc, hemb, hdec, -⟩
    exact ⟨info, hemb, decodeCompilationInfo_short hdec, plain_of_decode henc hemb hdec⟩
  · rintro ⟨info, hemb, hshort, hplain⟩
    obtain ⟨bs, hw, hr⟩ := carries_compilationInfo hemb
    have hdec := hr ⟨hshort, hplain⟩ bs.length le_rfl (.new bs) [] rfl
      (by simp [ByteReader.new, Cursor.remaining])
    refine ⟨bs, info, bs.length, _, ?_, hemb, hdec, ?_⟩
    · simp [encodedCompilationInfo, hw []]
    · simp [ByteReader.new, Cursor.advance]

/-- A function without code and registers, whose only constant is the `Float64` number one. -/
def float64Function : Bytecode.BytecodeFunction :=
  ⟨[], [.float64 0x3FF0000000000000#64], [], 0, [], [], none⟩

/-- The compiler has data that stand for the function, but they are not transmitted: the tag of the
constant is that of a `Float32`, and half of its bytes are taken for the number of registers. -/
theorem not_transmits_float64Function :
    (embed float64Function [] .x64).isSome ∧ ¬Transmits float64Function [] .x64 := by
  refine ⟨rfl, ?_⟩
  rintro ⟨bytes, info, depth, reader, henc, hemb, hdec, -⟩
  have hplain := plain_of_decode henc hemb hdec
  cases hemb
  exact hplain _ mem_cons_self

end Dora.Boots
