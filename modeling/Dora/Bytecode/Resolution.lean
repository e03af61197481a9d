import Dora.Bytecode.Items

/-!
# The resolution of the forward jumps

Distances are written into the last four bytes of a wide jump, into the code of a jump through the
pool when they fit into a byte, and into its constant otherwise: always within the item of the jump.

## Main definitions

* `Item.resolved`, `BytecodeWriter.resolvedCode`: a resolved item, and the code of all

## Main results

* `Emitted.resolveForwardJumps`: the code is resolved item by item
-/

namespace Dora.Bytecode

open Layout (place extent Boundary)
open List OperandWidth Forward

attribute [local simp] encode_immediate Coded.bytes encode Item.coded Coded.size

/-- The offset a label is bound to. -/
def labelOffset (labels : List (Option ℕ)) (lbl : Label) : ℕ := labels[lbl.toUsize]?.join.getD 0

theorem labelOffset_of_lookup {w : BytecodeWriter} {lbl : Label} {t : ℕ}
    (h : w.lookupLabel lbl = some (some t)) : labelOffset w.labelOffsets lbl = t := by
  have h' : w.labelOffsets[lbl.toUsize]? = some (some t) := h
  simp [labelOffset, h']

namespace Item

variable (labels : List (Option ℕ))

/-- The item after the loop over the wide jumps. -/
def patched : ℕ × Item → Coded
  | (start, wide f lbl) => ⟨.wide, f.immediate (labelOffset labels lbl - start)⟩
  | (_, it) => it.coded

/-- The instruction the item ends up as. -/
def resolved : ℕ × Item → Coded
  | (start, const f idx lbl) =>
    if fitsU8 (labelOffset labels lbl - start) then
      ⟨.normal, f.immediate (labelOffset labels lbl - start)⟩
    else ⟨.normal, f.const idx⟩
  | p => patched labels p

/-- What is written into the pool for the item. -/
@[simp]
def poolWrite : ℕ × Item → Option (ℕ × ConstPoolEntry)
  | (start, const _ idx lbl) =>
    if fitsU8 (labelOffset labels lbl - start) then none
    else some (idx.toUsize, .int32 (BitVec.ofNat 32 (labelOffset labels lbl - start)))
  | _ => none

theorem size_patched (p : ℕ × Item) : (patched labels p).size = p.2.size := by
  obtain ⟨start, _ | ⟨f, lbl⟩ | _⟩ := p
  · rfl
  · simp [patched, Item.size]
  · rfl

theorem size_resolved (p : ℕ × Item) : (resolved labels p).size = p.2.size := by
  obtain ⟨start, _ | _ | ⟨f, idx, lbl⟩⟩ := p
  · rfl
  · exact size_patched labels _
  · rw [resolved]
    split_ifs
    · simp [Item.size, encode_const]
    · rfl

end Item

namespace BytecodeWriter

variable (w : BytecodeWriter) (items : List Item)

/-- The code of the generated function. -/
def resolvedCode : List UInt8 :=
  (place Item.size 0 items).flatMap fun p => (Item.resolved w.labelOffsets p).bytes

/-- The constant pool of the generated function. -/
def resolvedPool : List ConstPoolEntry :=
  ((place Item.size 0 items).filterMap (Item.poolWrite w.labelOffsets)).foldl
    (fun pool e => pool.set e.1 e.2) w.constPool

/-- The visits of the reader over the code of the generated function. -/
def visits : List (ℕ × BytecodeInstruction) :=
  (place Item.size 0 items).map fun p => (p.1, (Item.resolved w.labelOffsets p).inst)

end BytecodeWriter

/-! ## Writes into the code -/

theorem setByte_append (pre rest : List UInt8) (b value : UInt8) :
    setByte (pre ++ b :: rest) pre.length value = some (pre ++ value :: rest) := by
  rw [setByte, if_pos (by simp)]
  simp

/-- Four bytes written one after the other, and what is done with the code then. -/
theorem setByte_four {α : Type} (pre rest : List UInt8) {old : List UInt8} (hold : old.length = 4)
    (v1 v2 v3 v4 : UInt8) (next : List UInt8 → Option α) :
    (do
      let code ← setByte (pre ++ (old ++ rest)) pre.length v1
      let code ← setByte code (pre.length + 1) v2
      let code ← setByte code (pre.length + 2) v3
      let code ← setByte code (pre.length + 3) v4
      next code) = next (pre ++ ([v1, v2, v3, v4] ++ rest)) := by
  obtain ⟨b1, b2, b3, b4, rfl⟩ : ∃ b1 b2 b3 b4, old = [b1, b2, b3, b4] := by
    match old, hold with
    | [b1, b2, b3, b4], _ => exact ⟨b1, b2, b3, b4, rfl⟩
  have hset : ∀ (mid tail : List UInt8) (b v : UInt8) (n : ℕ), mid.length = n →
      setByte (pre ++ (mid ++ b :: tail)) (pre.length + n) v =
        some (pre ++ (mid ++ v :: tail)) := by
    rintro mid tail b v n rfl
    rw [← append_assoc, ← length_append, setByte_append, append_assoc]
  have h1 := hset [] (b2 :: b3 :: b4 :: rest) b1 v1 0 rfl
  have h2 := hset [v1] (b3 :: b4 :: rest) b2 v2 1 rfl
  have h3 := hset [v1, v2] (b4 :: rest) b3 v3 2 rfl
  have h4 := hset [v1, v2, v3] rest b4 v4 3 rfl
  simp only [nil_append, cons_append, Nat.add_zero] at h1 h2 h3 h4
  simp only [cons_append, nil_append, h1, h2, h3, h4, Option.bind_eq_bind, Option.bind_some]

namespace BytecodeWriter

variable {w : BytecodeWriter}

variable {f : Forward} {lbl : Label} {t : ℕ}

theorem patchU32_append {pre old rest : List UInt8} (hcode : w.code = pre ++ (old ++ rest))
    (hold : old.length = 4) (value : ℕ) :
    w.patchU32 pre.length value =
      some { w with code := pre ++ (Bytes.ofNatLE 4 value ++ rest) } := by
  rw [patchU32, hcode, setByte_four pre rest hold, u32_bytes]

/-- **One round of the loop over the wide jumps** writes the distance into its item. -/
theorem resolveJumpOffset_item {pre rest : List UInt8}
    (hcode : w.code = pre ++ ((Item.wide f lbl).coded.bytes ++ rest))
    (hl : w.lookupLabel lbl = some (some t)) (hlt : pre.length < t) (ht : t < 2 ^ 32) :
    w.resolveJumpOffset (pre.length, pre.length + (Item.wide f lbl).size - 4, lbl) = some { w with
        code := pre ++ ((Coded.mk .wide (f.immediate (t - pre.length))).bytes ++ rest) } := by
  have haddress : pre.length + (Item.wide f lbl).size - 4 =
      (pre ++ (wide.marker ++ f.inst.toU8 :: f.condBytes .wide)).length := by
    simp [Item.size, size]
    omega
  have hcode' : w.code = (pre ++ (wide.marker ++ f.inst.toU8 :: f.condBytes .wide)) ++
      (wide.encode 0 ++ rest) := by
    simp [hcode]
  have hpatch := patchU32_append hcode' (Bytes.length_ofNatLE _ _) (t - pre.length)
  simp only [resolveJumpOffset, hl, Option.bind_eq_bind, Option.bind_some, hlt,
    asU32_of_lt (show t - pre.length < 2 ^ 32 by omega), haddress, hpatch]
  simp [size]

theorem immediateJump_instConst (f : Forward) : immediateJump f.instConst = some f.inst := by
  cases f <;> rfl

theorem jumpTarget_eq (f : Forward) :
    (if f.instConst = .jumpConst then 1 else 2) = 1 + (f.condBytes .normal).length := by
  cases f <;> rfl

/-- **One round of the loop over the jumps through the pool** turns its item into an immediate jump
when the distance fits into a byte, and writes its constant otherwise. -/
theorem resolveJumpConst_item {idx : ConstPoolIdx} {pre rest : List UInt8}
    (hcode : w.code = pre ++ ((Item.const f idx lbl).coded.bytes ++ rest))
    (hl : w.lookupLabel lbl = some (some t)) (hlt : pre.length < t) (ht : t < 2 ^ 32)
    (hidx : idx.toUsize < w.constPool.length) :
    w.resolveJumpConst (pre.length, idx, lbl) = some (if fitsU8 (t - pre.length) then
          { w with
            code := pre ++ ((Coded.mk .normal (f.immediate (t - pre.length))).bytes ++ rest) }
        else
          { w with
            constPool :=
              w.constPool.set idx.toUsize (.int32 (BitVec.ofNat 32 (t - pre.length))) }) := by
  have hcode' : w.code =
      pre ++ f.instConst.toU8 :: (f.condBytes .normal ++ UInt8.ofNat idx.toUsize :: rest) := by
    simp [hcode, encode_const, marker, size, Bytes.ofNatLE]
  have hat : w.bytecodeAt pre.length = some f.instConst := by
    simp [bytecodeAt, hcode']
  have hwide : f.instConst ≠ .wide := by cases f <;> simp [instConst]
  have hset : ∀ b : UInt8, setByte (pre ++ f.inst.toU8 :: (f.condBytes .normal ++
      UInt8.ofNat idx.toUsize :: rest)) (pre.length + (1 + (f.condBytes .normal).length)) b =
        some (pre ++ f.inst.toU8 :: (f.condBytes .normal ++ b :: rest)) := by
    intro b
    have h := setByte_append (pre ++ f.inst.toU8 :: f.condBytes .normal) rest
      (UInt8.ofNat idx.toUsize) b
    simpa [Nat.add_comm] using h
  simp only [resolveJumpConst, hl, Option.bind_eq_bind, Option.bind_some, hlt,
    asU32_of_lt (show t - pre.length < 2 ^ 32 by omega), hat, hwide, ne_eq,
    jumpTarget_eq, immediateJump_instConst]
  cases fitsU8 (t - pre.length) with
  | true =>
    simp only [hcode', setByte_append, hset, Option.bind_some]
    simp [marker, size, Bytes.ofNatLE]
  | false => simp [patchConst, hidx]

end BytecodeWriter

/-- The offsets of the labels are below `2 ^ 32`. -/
def BytecodeWriter.LabelsFit (w : BytecodeWriter) : Prop :=
  ∀ l t : ℕ, w.labelOffsets[l]? = some (some t) → t < 2 ^ 32

namespace Emitted

variable {w : BytecodeWriter} {items : List Item}

/-- In code below `2 ^ 32` bytes all labels fit. -/
theorem labelsFit (h : Emitted w items) (hcode : w.code.length < 2 ^ 32) : w.LabelsFit := by
  intro l t hl
  have hle := (h.labels l t hl).le
  rw [← h.length_code] at hle
  omega

section

variable (h : Emitted w items) (hfit : w.LabelsFit)
  (hb : ∀ it ∈ items, ∀ lbl ∈ it.label, ∃ t, w.lookupLabel lbl = some (some t))
include h hfit hb

/-- Every item that waits for a label finds it bound behind its start. -/
theorem target {p : ℕ × Item} (hp : p ∈ place Item.size 0 items) {lbl : Label}
    (hlbl : lbl ∈ p.2.label) :
    ∃ t, w.lookupLabel lbl = some (some t) ∧ p.1 < t ∧ t < 2 ^ 32 ∧ Boundary Item.size items t := by
  have hmem : p.2 ∈ items := by
    rw [← Layout.map_snd_place Item.size 0 items]
    exact mem_map_of_mem hp
  obtain ⟨t, ht⟩ := hb p.2 hmem lbl hlbl
  exact ⟨t, ht, h.forward p hp lbl hlbl t ht, hfit _ _ ht, h.labels _ _ ht⟩

theorem resolveJumpOffsets :
    w.unresolvedJumpOffsets.foldlM BytecodeWriter.resolveJumpOffset
        { w with unresolvedJumpOffsets := [] } =
      some { w with
        code := (place Item.size 0 items).flatMap fun p => (Item.patched w.labelOffsets p).bytes
        unresolvedJumpOffsets := [] } := by
  rw [h.jumpOffsets]
  have hstart : { w with unresolvedJumpOffsets := [] } = { w with
      code := [] ++ (place Item.size 0 items).flatMap fun p => p.2.coded.bytes
      unresolvedJumpOffsets := [] } := by
    rw [nil_append, ← h.code]
  rw [hstart]
  refine Layout.foldlM_place (fun p => p.2.coded.bytes)
    (fun p => (Item.patched w.labelOffsets p).bytes)
    (fun code _ => { w with code := code, unresolvedJumpOffsets := [] })
    (fun r _ => r) (fun _ => True) (fun p _ => Item.size_patched _ p) ?_ ?_ [] rfl () trivial
  · rintro ⟨start, _ | _ | _⟩ - hj
    · exact ⟨rfl, fun _ => rfl⟩
    · cases hj
    · exact ⟨rfl, fun _ => rfl⟩
  · rintro ⟨start, _ | ⟨f, lbl⟩ | _⟩ hp j hj pre rest r rfl - <;> cases hj
    obtain ⟨t, hl, hlt, ht, -⟩ := h.target hfit hb hp (show lbl ∈ _ from rfl)
    refine ⟨?_, trivial⟩
    simp only [Item.patched, labelOffset_of_lookup hl]
    exact BytecodeWriter.resolveJumpOffset_item rfl hl hlt ht

/-- **The resolution of the forward jumps** turns every item into the instruction it stands for. -/
theorem resolveForwardJumps :
    w.resolveForwardJumps = some { w with
      code := w.resolvedCode items
      constPool := w.resolvedPool items
      unresolvedJumpOffsets := []
      unresolvedJumpConsts := [] } := by
  simp only [BytecodeWriter.resolveForwardJumps, h.resolveJumpOffsets hfit hb]
  rw [h.jumpConsts, BytecodeWriter.resolvedPool, Layout.foldl_filterMap_set]
  refine Layout.foldlM_place (fun p => (Item.patched w.labelOffsets p).bytes)
    (fun p => (Item.resolved w.labelOffsets p).bytes)
    (fun code pool => { w with
      code := code, constPool := pool, unresolvedJumpOffsets := [], unresolvedJumpConsts := [] })
    (fun pool p =>
      (Item.poolWrite w.labelOffsets p).elim pool fun e => pool.set e.1 e.2)
    (fun pool => pool.length = w.constPool.length) (fun p _ => Item.size_resolved _ p) ?_ ?_ []
    rfl w.constPool rfl
  · rintro ⟨start, _ | _ | _⟩ - hj
    · exact ⟨rfl, fun _ => rfl⟩
    · exact ⟨rfl, fun _ => rfl⟩
    · cases hj
  · rintro ⟨start, _ | _ | ⟨f, idx, lbl⟩⟩ hp j hj pre rest pool rfl hpool <;> cases hj
    obtain ⟨t, hl, hlt, ht, -⟩ := h.target hfit hb hp (show lbl ∈ _ from rfl)
    have hidx : idx.toUsize < pool.length := by
      rw [hpool]
      refine h.pool (pre.length, idx, lbl) ?_
      rw [h.jumpConsts]
      exact mem_filterMap.mpr ⟨_, hp, rfl⟩
    simp only [Item.resolved, Item.patched, Item.poolWrite, labelOffset_of_lookup hl]
    rw [BytecodeWriter.resolveJumpConst_item (w := { w with
      code := pre ++ ((Item.const f idx lbl).coded.bytes ++ rest), constPool := pool,
      unresolvedJumpOffsets := [], unresolvedJumpConsts := [] }) rfl hl hlt ht hidx]
    cases fitsU8 (t - pre.length) with
    | true => exact ⟨rfl, hpool⟩
    | false => exact ⟨rfl, by simpa using hpool⟩

end

/-- The constants that are written are among those of the jumps through the pool. -/
theorem poolWrites_sublist (h : Emitted w items) :
    (((place Item.size 0 items).filterMap (Item.poolWrite w.labelOffsets)).map Prod.fst).Sublist
      (w.unresolvedJumpConsts.map fun j => j.2.1.toUsize) := by
  rw [h.jumpConsts, map_filterMap, map_filterMap]
  refine Layout.filterMap_sublist _ ?_
  rintro ⟨start, _ | _ | ⟨f, idx, lbl⟩⟩ a ha
  · simp at ha
  · simp at ha
  · simp only [Item.poolWrite] at ha
    split_ifs at ha
    · simp at ha
    · simpa [Item.jumpConst] using ha

theorem resolvedPool_of_ne (h : Emitted w items) {idx : ℕ}
    (hne : ∀ j ∈ w.unresolvedJumpConsts, j.2.1.toUsize ≠ idx) :
    (w.resolvedPool items)[idx]? = w.constPool[idx]? := by
  refine Layout.foldl_set_of_notMem (fun hmem => ?_) _
  obtain ⟨j, hj, heq⟩ := mem_map.mp (h.poolWrites_sublist.subset hmem)
  exact hne j hj heq

theorem resolvedPool_of_far (h : Emitted w items) {start : ℕ} {f : Forward} {idx : ConstPoolIdx}
    {lbl : Label} (hp : (start, .const f idx lbl) ∈ place Item.size 0 items)
    (hfar : fitsU8 (labelOffset w.labelOffsets lbl - start) = false) :
    (w.resolvedPool items)[idx.toUsize]? =
      some (.int32 (BitVec.ofNat 32 (labelOffset w.labelOffsets lbl - start))) := by
  have hwrite : (idx.toUsize, ConstPoolEntry.int32
      (BitVec.ofNat 32 (labelOffset w.labelOffsets lbl - start))) ∈
        (place Item.size 0 items).filterMap (Item.poolWrite w.labelOffsets) := by
    refine mem_filterMap.mpr ⟨_, hp, ?_⟩
    simp [hfar]
  have hlt : idx.toUsize < w.constPool.length := by
    refine h.pool (start, idx, lbl) ?_
    rw [h.jumpConsts]
    exact mem_filterMap.mpr ⟨_, hp, rfl⟩
  exact Layout.foldl_set (h.consts.sublist h.poolWrites_sublist) hwrite hlt

end Emitted

end Dora.Bytecode
