import Mathlib.Data.List.Infix
import Dora.Boots.Building

/-!
# What the builder generates

`resolveJumps` writes the distances into the code or the constant pool, each within the item of its
jump, so that the resolved items are decoded one by one.

## Main definitions

* `RoundTrips`: the iterator decodes what the calls were given

## Main results

* `Built.resolveJumps`, `Built.generate`: the generated function, item by item
* `roundTrips_iff`: when calls round-trip
* `not_roundTrips_fieldCalls`: calls that do not
-/

namespace Dora.Boots

open Bytecode (Item Emitted Forward OperandWidth Coded setByte labelOffset fitsU8)
open Layout (place extent Boundary)
open List BytecodeBuilder Bytecode UInt8 Layout Forward Opc BytecodeBuilder

attribute [local simp] OperandWidth.encode OperandWidth.size encode_immediate

/-! ## Writes into the code -/

namespace BytecodeBuilder

variable {b : BytecodeBuilder}

theorem setCode_natCast (b : BytecodeBuilder) (i : ℕ) (value : UInt8) :
    b.setCode i value = (setByte b.code i value).map fun code => { b with code := code } := by
  unfold setCode setByte
  simp only [Int.natCast_nonneg, Int.toNat_natCast, true_and]
  split_ifs <;> rfl

theorem codeAt_natCast (b : BytecodeBuilder) (i : ℕ) : b.codeAt i = b.code[i]? := by
  simp [codeAt]

theorem patchInt32_append {pre old rest : List UInt8} (hcode : b.code = pre ++ (old ++ rest))
    (hold : old.length = 4) {idx val : BitVec 32} (hidx : idx.toInt = pre.length)
    (hval : 0 ≤ val.toInt) :
    b.patchInt32 idx val = some { b with code := pre ++ (Bytes.ofNatLE 4 val.toNat ++ rest) } := by
  have h1 : (pre.length : ℤ) + 1 = (pre.length + 1 : ℕ) := by omega
  have h2 : (pre.length : ℤ) + 2 = (pre.length + 2 : ℕ) := by omega
  have h3 : (pre.length : ℤ) + 3 = (pre.length + 3 : ℕ) := by omega
  have h := setByte_four pre rest hold (ofNat (val &&& 0xFF).toNat)
    (ofNat ((val >>> 8) &&& 0xFF).toNat) (ofNat ((val >>> 16) &&& 0xFF).toNat)
    (ofNat ((val >>> 24) &&& 0xFF).toNat) fun code => some { b with code := code }
  rw [int32_bytes] at h
  rw [← h, patchInt32, hidx, h1, h2, h3]
  simp only [guard, hval, if_true, pure, Option.bind_eq_bind, Option.bind_some, ofBitVec_setWidth,
    setCode_natCast, Option.bind_assoc, Function.comp_def, hcode, Option.map_eq_bind]

/-! ## One round of the resolution -/

variable {f : Forward} {lbl : Label} {off : BitVec 32} {pre rest : List UInt8}

theorem resolveJump_eq (hl : b.labels[lbl.toUsize]? = some off) (hoff : 0 ≤ off.toInt)
    (hlt : pre.length < off.toNat) (hsize : pre.length < 2 ^ 31) (target : ℕ) :
    b.resolveJump ⟨toInt32 pre.length, toInt32 target, ⟨lbl.toUsize⟩⟩ = (do
      let offset := toInt32 (off.toNat - pre.length)
      let opcode := (← b.code[pre.length]?).toBitVec.setWidth 32
      if opcode = bcWide then
        b.patchInt32 (toInt32 target) offset
      else if isWide offset then
        let idx := (← b.codeAt (toInt32 target).toInt).toNat
        guard (idx < b.constPool.length)
        some { b with constPool := b.constPool.set idx (.int32 offset) }
      else
        let opcode ← immediateJump opcode
        let b ← b.setCode pre.length (ofBitVec (opcode.setWidth 8))
        b.setCode (toInt32 target).toInt (ofBitVec (offset.setWidth 8))) := by
  have hstart := toInt_toInt32 hsize
  have hint := (toNat_of_nonneg hoff).2
  have hbound : b.isBound ⟨lbl.toUsize⟩ = some true := by simp [isBound, hl, hoff]
  have hoffset : b.offset ⟨lbl.toUsize⟩ = some off := by simp [offset, hl, guard, hoff]
  have hafter : pre.length < off.toInt := by omega
  simp only [resolveJump, hbound, hoffset, Option.bind_eq_bind, Option.bind_some, guard, if_true,
    pure, hstart, hafter, sub_toInt32 (Nat.le_of_lt hlt), codeAt_natCast]

/-- **A wide jump** gets its distance in its last four bytes. -/
theorem resolveJump_wide (hcode : b.code = pre ++ ((Item.wide f lbl).coded.bytes ++ rest))
    (hl : b.labels[lbl.toUsize]? = some off) (hoff : 0 ≤ off.toInt) (hlt : pre.length < off.toNat)
    (hsize : pre.length + (Item.wide f lbl).size < 2 ^ 31) :
    b.resolveJump ⟨toInt32 pre.length, toInt32 (pre.length + (Item.wide f lbl).size - 4),
        ⟨lbl.toUsize⟩⟩ =
      some { b with
        code := pre ++ ((Coded.mk .wide (f.immediate (off.toNat - pre.length))).bytes ++
          rest) } := by
  have hbytes : (Item.wide f lbl).coded.bytes =
      (OperandWidth.wide.marker ++ f.inst.toU8 :: f.condBytes .wide) ++
        OperandWidth.wide.encode 0 := by
    simp [Item.coded, Coded.bytes]
  have haddress : pre.length + (Item.wide f lbl).size - 4 =
      (pre ++ (OperandWidth.wide.marker ++ f.inst.toU8 :: f.condBytes .wide)).length := by
    rw [Item.size, Coded.size, hbytes]
    simp
    omega
  have hcode' : b.code = (pre ++ (OperandWidth.wide.marker ++ f.inst.toU8 :: f.condBytes .wide)) ++
      (OperandWidth.wide.encode 0 ++ rest) := by
    simp [hcode, hbytes]
  have hoff' := (toNat_of_nonneg hoff).1
  have hdist : (toInt32 (off.toNat - pre.length)).toInt = (off.toNat - pre.length : ℕ) :=
    toInt_toInt32 (by omega)
  have hdist' : (toInt32 (off.toNat - pre.length)).toNat = off.toNat - pre.length :=
    toNat_toInt32 (by omega)
  have hopcode : b.code[pre.length]? = some 0 := by
    rw [hcode, hbytes]
    simp only [getElem?_append_right (Nat.le_refl _), Nat.sub_self]
    rfl
  rw [resolveJump_eq hl hoff hlt (by omega), hopcode, haddress]
  simp only [Option.bind_eq_bind, Option.bind_some]
  rw [if_pos (by decide), patchInt32_append hcode' (Bytes.length_ofNatLE _ _)
    (toInt_toInt32 (by omega)) (by omega), hdist']
  simp [Coded.bytes]

theorem immediateJump_opcodeBits (f : Forward) :
    immediateJump (opcodeBits f.instConst) = some (opcodeBits f.inst) := by
  cases f <;> rfl

/-- **A jump through the pool** becomes an immediate jump when its distance fits into a byte, and
gets its distance in its constant otherwise. -/
theorem resolveJump_const {idx : ConstPoolIdx}
    (hcode : b.code = pre ++ ((Item.const f idx lbl).coded.bytes ++ rest))
    (hl : b.labels[lbl.toUsize]? = some off) (hoff : 0 ≤ off.toInt) (hlt : pre.length < off.toNat)
    (hsize : pre.length + (Item.const f idx lbl).size < 2 ^ 31)
    (hidx : idx.toUsize < b.constPool.length) (hbyte : idx.toUsize < 256) :
    b.resolveJump ⟨toInt32 pre.length, toInt32 (pre.length + (Item.const f idx lbl).size - 1),
        ⟨lbl.toUsize⟩⟩ =
      some (if fitsU8 (off.toNat - pre.length) then
          { b with
            code := pre ++
              ((Coded.mk .normal (f.immediate (off.toNat - pre.length))).bytes ++ rest) }
        else
          { b with
            constPool :=
              b.constPool.set idx.toUsize (.int32 (toInt32 (off.toNat - pre.length))) }) := by
  have hbytes : (Item.const f idx lbl).coded.bytes =
      f.instConst.toU8 :: (f.condBytes .normal ++ [UInt8.ofNat idx.toUsize]) := by
    simp [Item.coded, Coded.bytes, encode_const, OperandWidth.marker, Bytes.ofNatLE]
  have haddress : pre.length + (Item.const f idx lbl).size - 1 =
      (pre ++ f.instConst.toU8 :: f.condBytes .normal).length := by
    rw [Item.size, Coded.size, hbytes]
    simp
  have hcode' : ∀ op : UInt8, pre ++ op ::
      (f.condBytes .normal ++ UInt8.ofNat idx.toUsize :: rest) =
      (pre ++ op :: f.condBytes .normal) ++ UInt8.ofNat idx.toUsize :: rest := by
    intro op
    simp
  rw [hbytes] at hcode
  simp only [cons_append, append_assoc, nil_append] at hcode
  have htarget : (toInt32 (pre.length + (Item.const f idx lbl).size - 1)).toInt =
      (pre ++ f.instConst.toU8 :: f.condBytes .normal).length := by
    rw [haddress]
    exact toInt_toInt32 (by omega)
  have hoff' := (toNat_of_nonneg hoff).1
  have hdist : (toInt32 (off.toNat - pre.length)).toNat = off.toNat - pre.length :=
    toNat_toInt32 (by omega)
  have hwide : isWide (toInt32 (off.toNat - pre.length)) = !fitsU8 (off.toNat - pre.length) := by
    rw [isWide_of_lt (by omega), hdist, fitsU8, ← decide_not]
    exact decide_eq_decide.mpr (by omega)
  have hopcode : b.code[pre.length]? = some f.instConst.toU8 := by simp [hcode]
  have hnot : opcodeBits f.instConst ≠ bcWide := by cases f <;> exact of_decide_eq_true rfl
  have hset : ∀ value : UInt8, setByte
      (pre ++ f.inst.toU8 :: (f.condBytes .normal ++ UInt8.ofNat idx.toUsize :: rest))
      (pre ++ f.instConst.toU8 :: f.condBytes .normal).length value =
        some (pre ++ f.inst.toU8 :: (f.condBytes .normal ++ value :: rest)) := by
    intro value
    have h := setByte_append (pre ++ f.inst.toU8 :: f.condBytes .normal) rest
      (UInt8.ofNat idx.toUsize) value
    simpa using h
  rw [resolveJump_eq hl hoff hlt (by omega), hopcode, htarget]
  simp only [Option.bind_eq_bind, Option.bind_some]
  rw [if_neg (show (f.instConst.toU8.toBitVec.setWidth 32) ≠ bcWide from hnot), hwide]
  cases hfit : fitsU8 (off.toNat - pre.length) with
  | true =>
    have himm : immediateJump (f.instConst.toU8.toBitVec.setWidth 32) = some (opcodeBits f.inst) :=
      immediateJump_opcodeBits f
    have hop : UInt8.ofNat (opcodeBits f.inst).toNat = f.inst.toU8 := by
      rw [opcodeBits, toNat_widened, UInt8.ofNat_toNat]
    rw [if_neg (by simp), himm]
    simp only [Option.bind_some, ofBitVec_setWidth, setCode_natCast, hcode,
      setByte_append, Option.map_some, hop, hdist, hset]
    simp [Coded.bytes, OperandWidth.marker, Bytes.ofNatLE]
  | false =>
    have hread : b.codeAt (pre ++ f.instConst.toU8 :: f.condBytes .normal).length =
        some (UInt8.ofNat idx.toUsize) := by
      rw [codeAt_natCast, hcode, hcode', getElem?_append_right (Nat.le_refl _)]
      simp
    have hnat : (UInt8.ofNat idx.toUsize).toNat = idx.toUsize := by
      rw [UInt8.toNat_ofNat', Nat.mod_eq_of_lt (by omega)]
    rw [if_pos (by simp), hread]
    simp [hnat, hidx, guard]

end BytecodeBuilder

/-! ## The generated function -/

/-- What the resolution of an item writes into the pool. -/
def poolWrite (labels : List (Option ℕ)) : ℕ × Item → Option (ℕ × ConstPoolEntry)
  | (start, .const _ idx lbl) =>
    if fitsU8 (labelOffset labels lbl - start) then none
    else some (idx.toUsize, .int32 (toInt32 (labelOffset labels lbl - start)))
  | _ => none

/-- The builder writes the same constants as the writer of the virtual machine. -/
theorem map_fst_poolWrite (labels : List (Option ℕ)) (ps : List (ℕ × Item)) :
    (ps.filterMap (poolWrite labels)).map Prod.fst =
      (ps.filterMap (Item.poolWrite labels)).map Prod.fst := by
  rw [map_filterMap, map_filterMap]
  congr 1
  funext p
  obtain ⟨start, _ | _ | ⟨f, idx, lbl⟩⟩ := p
  · rfl
  · rfl
  · simp only [poolWrite, Item.poolWrite]
    split_ifs <;> rfl

/-- The constant pool of the generated function. -/
def BytecodeBuilder.resolvedPool (b : BytecodeBuilder) (items : List Item) : List ConstPoolEntry :=
  ((place Item.size 0 items).filterMap (poolWrite (b.labels.map boundOffset))).foldl
    (fun pool e => pool.set e.1 e.2) b.constPool

/-- The items wait for labels that are bound. -/
def AllBound (b : BytecodeBuilder) (items : List Item) : Prop :=
  ∀ it ∈ items, ∀ lbl ∈ it.label, b.scope[lbl.toUsize]? = some true

namespace Built

variable {b : BytecodeBuilder} {items : List Item}

section

variable (h : Built b items)
include h

variable {lbl : Label}

variable {start : ℕ} {f : Forward} {idx : ConstPoolIdx}

/-- Every item that waits for a label finds it bound behind its start. -/
theorem target (hb : AllBound b items) {p : ℕ × Item} (hp : p ∈ place Item.size 0 items)
    (hlbl : lbl ∈ p.2.label) :
    ∃ off, b.labels[lbl.toUsize]? = some off ∧ 0 ≤ off.toInt ∧ b.offset ⟨lbl.toUsize⟩ = some off ∧
      (b.shadow items).lookupLabel lbl = some (some off.toNat) ∧ p.1 < off.toNat := by
  have hmem : p.2 ∈ items := by
    rw [← map_snd_place Item.size 0 items]
    exact mem_map_of_mem hp
  have hscope : b.scope[(⟨lbl.toUsize⟩ : BytecodeLabel).id]? = some true := hb p.2 hmem lbl hlbl
  obtain ⟨off, hget, hoff, hoffset⟩ := offset_of_scope hscope
  have hlookup : (b.shadow items).lookupLabel lbl = some (some off.toNat) := by
    simp [BytecodeWriter.lookupLabel, hget, boundOffset, hoff]
  exact ⟨off, hget, hoff, hoffset, hlookup, h.emitted.forward p hp lbl hlbl _ hlookup⟩

theorem lookup (hb : AllBound b items) :
    ∀ it ∈ items, ∀ lbl ∈ it.label, ∃ t, (b.shadow items).lookupLabel lbl = some (some t) := by
  intro it hit lbl hlbl
  rw [← map_snd_place Item.size 0 items] at hit
  obtain ⟨p, hp, rfl⟩ := mem_map.mp hit
  obtain ⟨off, -, -, -, hlookup, -⟩ := h.target hb hp hlbl
  exact ⟨_, hlookup⟩

theorem const_lt
    (hp : (start, .const f idx lbl) ∈ place Item.size 0 items) :
    idx.toUsize < b.constPool.length ∧ idx.toUsize < 256 := by
  refine ⟨?_, ?_⟩
  · have hlt := h.emitted.pool (start, idx, lbl) (mem_filterMap.mpr ⟨_, hp, rfl⟩)
    simpa using hlt
  · have hmem : Item.const f idx lbl ∈ items := by
      rw [← map_snd_place Item.size 0 items]
      exact mem_map_of_mem hp
    refine h.emitted.fits _ hmem idx.toUsize ?_
    simp [Item.coded, operands_const]

/-- **The resolution of the jumps** turns every item into the instruction it stands for. -/
theorem resolveJumps (hb : AllBound b items) (hcode : b.code.length < 2 ^ 31) :
    b.resolveJumps = some { b with
      code := (b.shadow items).resolvedCode items
      constPool := b.resolvedPool items
      unresolvedJumps := [] } := by
  have hfold : ((place Item.size 0 items).filterMap unresolvedJump).foldlM
      resolveJump b = some { b with
        code := (b.shadow items).resolvedCode items, constPool := b.resolvedPool items } := by
    have hstart : b = { b with
        code := [] ++ (place Item.size 0 items).flatMap fun p => p.2.coded.bytes } := by
      have heq := h.emitted.code
      simp only [shadow] at heq
      rw [nil_append, ← heq]
    rw [resolvedPool, foldl_filterMap_set]
    nth_rewrite 1 [hstart]
    refine foldlM_place (fun p => p.2.coded.bytes)
      (fun p => (Item.resolved (b.labels.map boundOffset) p).bytes)
      (fun code pool => { b with code := code, constPool := pool })
      (fun pool p => (poolWrite (b.labels.map boundOffset) p).elim pool fun e => pool.set e.1 e.2)
      (fun pool => pool.length = b.constPool.length) (fun p _ => Item.size_resolved _ p) ?_ ?_ []
      rfl b.constPool rfl
    · rintro ⟨start, _ | _ | _⟩ - hj
      · exact ⟨rfl, fun _ => rfl⟩
      · cases hj
      · cases hj
    · intro p hp j hj pre rest pool hpre hpool
      have hsize : p.1 + p.2.size ≤ 0 + extent Item.size items := (place_bounds hp).2
      rw [Nat.zero_add, ← h.length_code, ← hpre] at hsize
      obtain ⟨start, _ | ⟨f, lbl⟩ | ⟨f, idx, lbl⟩⟩ := p <;> cases hj <;> cases hpre
      · obtain ⟨off, hget, hoff, -, hlookup, hlt⟩ := h.target hb hp (show lbl ∈ _ from rfl)
        have hlabel : labelOffset (b.labels.map boundOffset) lbl = off.toNat :=
          labelOffset_of_lookup hlookup
        refine ⟨?_, hpool⟩
        simp only [Item.resolved, Item.patched, hlabel]
        exact resolveJump_wide rfl hget hoff hlt (by dsimp only at hsize; omega)
      · obtain ⟨off, hget, hoff, -, hlookup, hlt⟩ := h.target hb hp (show lbl ∈ _ from rfl)
        have hlabel : labelOffset (b.labels.map boundOffset) lbl = off.toNat :=
          labelOffset_of_lookup hlookup
        obtain ⟨hidx, hbyte⟩ := h.const_lt hp
        simp only [Item.resolved, poolWrite, hlabel]
        rw [resolveJump_const (b := { b with
          code := pre ++ ((Item.const f idx lbl).coded.bytes ++ rest), constPool := pool }) rfl hget
          hoff hlt (by dsimp only at hsize; omega) (hpool ▸ hidx) hbyte]
        cases fitsU8 (off.toNat - pre.length) with
        | true => exact ⟨rfl, hpool⟩
        | false => exact ⟨rfl, by simpa using hpool⟩
  rw [BytecodeBuilder.resolveJumps, h.jumps, hfold]
  rfl

/-- The distance of a jump that does not fit into a byte is found in its constant. -/
theorem resolvedPool_of_far (hp : (start, .const f idx lbl) ∈ place Item.size 0 items)
    (hfar : fitsU8 (labelOffset (b.labels.map boundOffset) lbl - start) = false) :
    (b.resolvedPool items)[idx.toUsize]? =
      some (.int32 (toInt32 (labelOffset (b.labels.map boundOffset) lbl - start))) := by
  have hwrite : (idx.toUsize, ConstPoolEntry.int32
      (toInt32 (labelOffset (b.labels.map boundOffset) lbl - start))) ∈
        (place Item.size 0 items).filterMap (poolWrite (b.labels.map boundOffset)) := by
    refine mem_filterMap.mpr ⟨_, hp, ?_⟩
    simp [poolWrite, hfar]
  refine foldl_set ?_ hwrite (h.const_lt hp).1
  rw [map_fst_poolWrite]
  exact h.emitted.consts.sublist h.emitted.poolWrites_sublist

/-- **The generated function**, item by item. -/
theorem generate (hb : AllBound b items) (hcode : b.code.length < 2 ^ 31)
    (harguments : b.arguments.toInt ≤ b.registers.length) :
    b.generate = some ⟨(b.shadow items).resolvedCode items, b.resolvedPool items, b.registers,
      b.arguments⟩ := by
  simp only [BytecodeBuilder.generate, h.resolveJumps hb hcode, Option.bind_eq_bind,
    Option.bind_some, guard, harguments, if_true, pure]

end

end Built

/-! ## The round trip -/

/-- The decoded instruction has the opcode, the operands and the byte. -/
def BytecodeInstructionInfo.Has (info : BytecodeInstructionInfo) (opcode : BitVec 32)
    (vals : List (BitVec 32)) (immediate : List UInt8) : Prop :=
  info.opcode = opcode ∧ info.inst.opcode = some opcode ∧ info.inst.operands = vals ∧
    info.inst.immediate = immediate

/-- The decoded instruction is what the call has emitted. A forward jump leads to the offset that
its label has in the end, through the pool or not, and a backward jump to the offset that its label
had when it was emitted. -/
def Decodes (final : BytecodeBuilder) (pool : List ConstPoolEntry) (e : BytecodeBuilder × Call)
    (info : BytecodeInstructionInfo) : Prop :=
  match e.2.view with
  | .silent => False
  | .values opcode vals immediate => info.Has opcode vals immediate
  | .forward inst instConst opnd lbl =>
    ∃ off distance, final.offset lbl = some off ∧ info.start + distance.toInt = off.toInt ∧
      (info.Has inst (opnd.toList.map (·.value) ++ [distance]) [] ∨
        ∃ idx, info.Has instConst (opnd.toList.map (·.value) ++ [idx]) [] ∧
          pool[idx.toNat]? = some (.int32 distance))
  | .loop lbl =>
    ∃ off distance, e.1.offset lbl = some off ∧ info.start - distance.toInt = off.toInt ∧
      info.Has bcJumpLoop [distance] []

/-- **The round trip**: the calls run to the end, and the generated code is decoded into one
instruction for each call that emits, in order, which is what the call has emitted. -/
def RoundTrips (calls : List Call) : Prop :=
  ∃ b f infos, new.run calls = some b ∧ b.generate = some f ∧ decodeBytecode f.code = some infos ∧
    List.Forall₂ (Decodes b f.constPool) (history .new calls) infos

/-- All builders that the calls go through have less than `2 ^ 31` bytes of code and constants. -/
def Small (calls : List Call) : Prop :=
  ∀ pre, pre <+: calls → ∀ b, new.run pre = some b →
    b.code.length < 2 ^ 31 ∧ b.constPool.length < 2 ^ 31

instance (calls : List Call) : Decidable (Small calls) :=
  decidable_of_iff (∀ pre ∈ calls.inits, ∀ b ∈ new.run pre,
    b.code.length < 2 ^ 31 ∧ b.constPool.length < 2 ^ 31)
    (forall_congr' fun pre => by rw [mem_inits]; rfl)

/-- The calls keep to what the asserts of the builder ask for: the discipline of the labels,
operands that are not negative, and no more arguments than registers. -/
structure Valid (calls : List Call) : Prop where
  disciplined : Disciplined calls
  nonNegative : ∀ c ∈ calls, c.NonNegative
  arguments : ∀ b, new.run calls = some b → b.arguments.toInt ≤ b.registers.length

theorem has_of_same {span : ℕ × ℕ × Bytecode.BytecodeInstruction} {info : BytecodeInstructionInfo}
    (h : SameInstruction span info) :
    info.Has (opcodeBits span.2.2.opcode) (span.2.2.operands.map (BitVec.ofNat 32))
      span.2.2.immediate := by
  obtain ⟨hopcode, himmediate⟩ := opcode_translate h.inst
  exact ⟨h.opcode, hopcode, operands_translate h.inst, himmediate⟩

theorem map_ofNat_toNat (vals : List (BitVec 32)) :
    (vals.map BitVec.toNat).map (BitVec.ofNat 32) = vals := by
  rw [map_map]
  conv_rhs => rw [← map_id vals]
  exact map_congr_left fun val _ => by simp

theorem map_ofNat_cond {f : Forward} {opnd : Option BytecodeRegister}
    (hcond : f.cond = opnd.map fun reg => ⟨reg.value.toNat⟩) :
    (f.cond.toList.map Register.toUsize).map (BitVec.ofNat 32) = opnd.toList.map (·.value) := by
  cases opnd <;> simp [hcond]

theorem forall₂_visits {visits : List (ℕ × Bytecode.BytecodeInstruction)} {stop : ℕ}
    {infos : List BytecodeInstructionInfo}
    (h : List.Forall₂ SameInstruction (spans stop visits) infos) :
    List.Forall₂ (fun visit info => ∃ size, SameInstruction (visit.1, size, visit.2) info)
      visits infos := by
  induction visits generalizing infos with
  | nil =>
    cases h
    exact .nil
  | cons visit visits ih =>
    obtain _ | ⟨hinfo, h⟩ := h
    exact .cons ⟨_, hinfo⟩ (ih h)

namespace Built

variable {b : BytecodeBuilder} {items : List Item} {e : BytecodeBuilder × Call} {p : ℕ × Item}

/-- What an item ends up as can be decoded, and is what its call has emitted. -/
theorem decodes (h : Built b items) (hb : AllBound b items) (hp : p ∈ place Item.size 0 items)
    (he : Emits e.1 e.2 p) :
    (handles (Item.resolved (b.labels.map boundOffset) p).inst.opcode ∧
      ∀ n ∈ (Item.resolved (b.labels.map boundOffset) p).inst.operands, n < 2 ^ 31) ∧
    ∀ size info,
      SameInstruction (p.1, size, (Item.resolved (b.labels.map boundOffset) p).inst) info →
        Decodes b (b.resolvedPool items) e info := by
  unfold Emits at he
  unfold Decodes
  obtain ⟨start, it⟩ := p
  cases hv : e.2.view <;> simp only [hv] at he ⊢
  case values opcode vals immediate =>
    obtain ⟨hn, i, rfl, hop, hi, himm, hhandles⟩ := he
    refine ⟨⟨hhandles, fun n hmem => ?_⟩, fun size info hsame => ?_⟩
    · simp only [Item.resolved, Item.patched, Item.coded, hi] at hmem
      obtain ⟨val, hval, rfl⟩ := mem_map.mp hmem
      exact (toNat_of_nonneg (hn val hval)).1
    · have hhas := has_of_same hsame
      simp only [Item.resolved, Item.patched, Item.coded, hi, map_ofNat_toNat, himm, ← hop] at hhas
      exact hhas
  case loop lbl =>
    obtain ⟨off, hoffset, hoff, hle, hlt, rfl⟩ := he
    refine ⟨⟨rfl, fun n hmem => ?_⟩, fun size info hsame => ?_⟩
    · obtain rfl := mem_singleton.mp hmem
      omega
    · refine ⟨off, toInt32 (start - off.toNat), hoffset, ?_, has_of_same hsame⟩
      rw [hsame.start, toInt_toInt32 (by omega), (toNat_of_nonneg hoff).2]
      omega
  case forward inst instConst opnd lbl =>
    obtain ⟨hn, f, hinst, hconst, hcond, hform⟩ := he
    have hlabel : ⟨lbl.id⟩ ∈ it.label := by
      rcases hform with rfl | ⟨idx, rfl⟩ <;> rfl
    obtain ⟨off, hget, hoff, hoffset, hlookup, hlt⟩ := h.target hb hp hlabel
    obtain ⟨hoff', hint⟩ := toNat_of_nonneg hoff
    have hat : labelOffset (b.labels.map boundOffset) ⟨lbl.id⟩ = off.toNat :=
      Bytecode.labelOffset_of_lookup hlookup
    have hregs : ∀ n ∈ f.cond.toList.map Bytecode.Register.toUsize, n < 2 ^ 31 := by
      intro n hmem
      simp only [hcond, mem_map, Option.mem_toList, Option.map_eq_some_iff] at hmem
      obtain ⟨_, ⟨reg, hreg, rfl⟩, rfl⟩ := hmem
      exact (toNat_of_nonneg (hn reg hreg)).1
    have hdist : (toInt32 (off.toNat - start)).toInt = (off.toNat - start : ℕ) :=
      toInt_toInt32 (by omega)
    -- a jump with an immediate distance, in wide or in narrow form
    have himmediate : (handles (f.immediate (off.toNat - start)).opcode ∧
        ∀ n ∈ (f.immediate (off.toNat - start)).operands, n < 2 ^ 31) ∧
        ∀ size info, SameInstruction (start, size, f.immediate (off.toNat - start)) info →
          info.start + (toInt32 (off.toNat - start)).toInt = off.toInt ∧
          info.Has inst (opnd.toList.map (·.value) ++ [toInt32 (off.toNat - start)]) [] := by
      refine ⟨⟨by cases f <;> rfl, fun n hmem => ?_⟩, fun size info hsame => ⟨?_, ?_⟩⟩
      · rw [operands_immediate, mem_append, mem_singleton] at hmem
        rcases hmem with hmem | rfl
        · exact hregs n hmem
        · omega
      · rw [hsame.start]
        omega
      · have hhas := has_of_same hsame
        rw [operands_immediate, map_append, map_ofNat_cond hcond] at hhas
        have hopcode : opcodeBits (f.immediate (off.toNat - start)).opcode = inst := by
          rw [hinst]
          cases f <;> rfl
        have hempty : (f.immediate (off.toNat - start)).immediate = [] := by cases f <;> rfl
        rwa [hopcode, hempty] at hhas
    rcases hform with rfl | ⟨idx, rfl⟩
    · simp only [Item.resolved, Item.patched, hat]
      refine ⟨himmediate.1, fun size info hsame => ?_⟩
      obtain ⟨hstart, hhas⟩ := himmediate.2 size info hsame
      exact ⟨off, _, hoffset, hstart, .inl hhas⟩
    · simp only [Item.resolved, hat]
      cases hfit : fitsU8 (off.toNat - start) with
      | true =>
        refine ⟨himmediate.1, fun size info hsame => ?_⟩
        obtain ⟨hstart, hhas⟩ := himmediate.2 size info hsame
        exact ⟨off, _, hoffset, hstart, .inl hhas⟩
      | false =>
        -- the distance is in the constant
        have hidx := (h.const_lt hp).2
        simp only [Bool.false_eq_true, if_false]
        refine ⟨⟨by cases f <;> rfl, fun n hmem => ?_⟩, fun size info hsame => ?_⟩
        · rw [operands_const, mem_append, mem_singleton] at hmem
          rcases hmem with hmem | rfl
          · exact hregs n hmem
          · omega
        · refine ⟨off, toInt32 (off.toNat - start), hoffset, ?_, .inr ⟨toInt32 idx.toUsize, ?_, ?_⟩⟩
          · rw [hsame.start]
            omega
          · have hhas := has_of_same hsame
            rw [operands_const, map_append, map_ofNat_cond hcond] at hhas
            have hopcode : opcodeBits (f.const idx).opcode = instConst := by
              rw [hconst]
              cases f <;> rfl
            have hempty : (f.const idx).immediate = [] := by cases f <;> rfl
            rwa [hopcode, hempty] at hhas
          · rw [toNat_toInt32 (by omega), h.resolvedPool_of_far hp (hat.symm ▸ hfit), hat]

theorem decodeBytecode_resolvedCode (h : Built b items) (hb : AllBound b items)
    {events : List (BytecodeBuilder × Call)}
    (hitems : List.Forall₂ (fun e p => Emits e.1 e.2 p) events (place Item.size 0 items)) :
    ∃ infos, decodeBytecode ((b.shadow items).resolvedCode items) = some infos ∧
      List.Forall₂ (Decodes b (b.resolvedPool items)) events infos := by
  have hfit : (b.shadow items).LabelsFit := by
    intro l t hl
    simp only [shadow, getElem?_map, Option.map_eq_some_iff, boundOffset] at hl
    obtain ⟨off, -, hoff⟩ := hl
    split_ifs at hoff
    cases hoff
    exact off.isLt
  have hdecodes := (forall₂_mem hitems).imp fun e p he => h.decodes hb he.1 he.2
  obtain ⟨reader, hread, -⟩ := h.emitted.read_resolvedCode hfit (h.lookup hb)
  have hvisits : ∀ visit ∈ (b.shadow items).visits items,
      handles visit.2.opcode ∧ ∀ n ∈ visit.2.operands, n < 2 ^ 31 := by
    intro visit hvisit
    obtain ⟨p, hp, rfl⟩ := mem_map.mp hvisit
    obtain ⟨k, hk⟩ := mem_iff_getElem?.mp hp
    obtain ⟨e, -, he⟩ := forall₂_getElem? hdecodes hk
    exact he.1
  rw [decodeBytecode_eq, hread, Option.bind_some]
  obtain ⟨infos, hinfos, hsame⟩ := forall₂_decoded hvisits
  refine ⟨infos, hinfos, ?_⟩
  have hsame' := forall₂_visits hsame
  rw [Bytecode.BytecodeWriter.visits, List.forall₂_map_left_iff] at hsame'
  refine forall₂_comp ?_ hdecodes hsame'
  rintro e p info he ⟨size, hinfo⟩
  exact he.2 size info hinfo

end Built

variable {c : Call} {b : BytecodeBuilder}

theorem Emits.target {p : ℕ × Item} (h : Emits b c p) {lbl : Label} (hlbl : lbl ∈ p.2.label) :
    ⟨lbl.toUsize⟩ ∈ c.target := by
  unfold Emits at h
  unfold Call.target
  obtain ⟨start, it⟩ := p
  cases hv : c.view <;> simp only [hv] at h ⊢
  case values =>
    obtain ⟨-, i, rfl, -⟩ := h
    cases hlbl
  case loop =>
    obtain ⟨off, -, -, -, -, rfl⟩ := h
    cases hlbl
  case forward =>
    obtain ⟨-, f, -, -, -, rfl | ⟨idx, rfl⟩⟩ := h <;> cases hlbl <;> rfl

variable {calls : List Call}

theorem mem_of_mem_history {e : BytecodeBuilder × Call} (h : e ∈ history b calls) :
    e.2 ∈ calls := by
  induction calls generalizing b with
  | nil => cases h
  | cons c calls ih =>
    rw [history, mem_append] at h
    rcases h with h | h
    · obtain ⟨d, hd, rfl⟩ := mem_map.mp h
      rw [mem_singleton.mp (mem_of_mem_filter hd)]
      exact mem_cons_self
    · cases hc : b.exec c with
      | none => simp [hc] at h
      | some b' =>
        rw [hc, Option.elim_some] at h
        exact mem_cons_of_mem _ (ih h)

theorem exists_mem_history {b' : BytecodeBuilder} (hr : b.run calls = some b') (hc : c ∈ calls)
    (he : c.emits) :
    ∃ b0, (b0, c) ∈ history b calls := by
  induction calls generalizing b with
  | nil => cases hc
  | cons d calls ih =>
    obtain ⟨b1, hb1, hr⟩ := Option.bind_eq_some_iff.mp hr
    rw [history, hb1, Option.elim_some]
    rcases mem_cons.mp hc with rfl | hc
    · exact ⟨b, mem_append_left _ (by simp [he])⟩
    · obtain ⟨b0, hb0⟩ := ih hr hc
      exact ⟨b0, mem_append_right _ hb0⟩

theorem not_mismatched_of_roundTrips (h : RoundTrips calls) (hc : c ∈ calls) : ¬c.Mismatched := by
  intro hm
  obtain ⟨b, f, infos, hr, -, -, hdecodes⟩ := h
  obtain ⟨opcode, vals, immediate, hv⟩ :
      ∃ opcode vals immediate, c.view = .values opcode vals immediate := by
    cases c <;> simp only [Call.Mismatched] at hm <;> exact ⟨_, _, _, rfl⟩
  obtain ⟨b0, hb0⟩ := exists_mem_history hr hc (by simp [Call.emits, hv])
  obtain ⟨k, hk⟩ := mem_iff_getElem?.mp hb0
  obtain ⟨info, -, hinfo⟩ := forall₂_getElem? (List.Forall₂.flip hdecodes) hk
  have hhas : info.Has opcode vals immediate := by
    simpa only [hv] using (hinfo : Decodes b f.constPool (b0, c) info)
  exact Call.operands_ne_of_mismatched hv hm hhas.2.1 hhas.2.2.1

theorem roundTrips_of_not_mismatched (hvalid : Valid calls) (hsmall : Small calls)
    (hm : ∀ c ∈ calls, ¬c.Mismatched) : RoundTrips calls := by
  have hnew : Built .new [] := by
    refine ⟨⟨rfl, rfl, rfl, ?_, ?_, ?_, ?_, ?_⟩, rfl⟩ <;>
      simp [new, place]
  obtain ⟨labels, hlabels, hbound⟩ := hvalid.disciplined
  obtain ⟨b, items, hr, rfl, h, hitems⟩ :=
    hnew.run hvalid.nonNegative hm (Option.mem_def.mp hlabels) hsmall
  have hall : AllBound b items := by
    intro it hit lbl hlbl
    rw [← map_snd_place Item.size 0 items] at hit
    obtain ⟨p, hp, rfl⟩ := mem_map.mp hit
    obtain ⟨k, hk⟩ := mem_iff_getElem?.mp hp
    obtain ⟨e, he, hemits⟩ := forall₂_getElem? hitems hk
    exact hbound e.2 (mem_of_mem_history (mem_of_getElem? he)) _ (hemits.target hlbl)
  obtain ⟨infos, hinfos, hdecodes⟩ := h.decodeBytecode_resolvedCode hall hitems
  have hcode := (hsmall calls prefix_rfl b hr).1
  exact ⟨b, _, infos, hr, h.generate hall hcode (hvalid.arguments b hr), hinfos, hdecodes⟩

/-- **The round trip through the builder and the iterator** succeeds exactly when no call is
mismatched. -/
theorem roundTrips_iff {calls : List Call} (hvalid : Valid calls) (hsmall : Small calls) :
    RoundTrips calls ↔ ∀ c ∈ calls, ¬c.Mismatched :=
  ⟨fun h _ => not_mismatched_of_roundTrips h, roundTrips_of_not_mismatched hvalid hsmall⟩

/-- A loop with a jump out of it, a wide register and a constant. -/
def loopCalls : List Call :=
  [.addConst (.int32 7), .createLabel, .defineLabel, .emitLoopStart,
    .emitJumpIfFalse ⟨0⟩ ⟨0⟩, .emitConstInt32 ⟨300⟩ ⟨0⟩, .emitConstByte ⟨1⟩ 255,
    .emitJumpLoop ⟨1⟩, .bindLabel ⟨0⟩, .emitRet ⟨0⟩]

theorem roundTrips_iff_loopCalls : Valid loopCalls ∧ Small loopCalls ∧ RoundTrips loopCalls := by
  have hvalid : Valid loopCalls := by
    refine ⟨by decide +kernel, ?_, ?_⟩
    · simp [loopCalls, Call.NonNegative, Call.view]
    · show ∀ b ∈ new.run loopCalls, b.arguments.toInt ≤ b.registers.length
      decide +kernel
  have hsmall : Small loopCalls := by decide +kernel
  exact ⟨hvalid, hsmall, (roundTrips_iff hvalid hsmall).mpr (by decide +kernel)⟩

/-- A load of a field, and the return of it. -/
def fieldCalls : List Call := [.emitLoadField ⟨0⟩ ⟨1⟩ ⟨2⟩ ⟨3⟩, .emitRet ⟨0⟩]

/-- The iterator takes the field for the opcode of a negation. -/
theorem not_roundTrips_fieldCalls :
    Valid fieldCalls ∧ Small fieldCalls ∧ ¬RoundTrips fieldCalls ∧
      (((new.run fieldCalls).bind generate).bind fun f =>
          (decodeBytecode f.code).map (·.map (·.inst))) =
        some [.loadField ⟨0⟩ ⟨1⟩ ⟨2⟩, .neg ⟨65⟩ ⟨0⟩] := by
  refine ⟨⟨by decide +kernel, ?_, ?_⟩, by decide +kernel, fun h => ?_, by decide +kernel⟩
  · simp [fieldCalls, Call.NonNegative, Call.view]
  · show ∀ b ∈ new.run fieldCalls, b.arguments.toInt ≤ b.registers.length
    decide +kernel
  · exact not_mismatched_of_roundTrips h mem_cons_self trivial

end Dora.Boots
