import Dora.Asm.X64
import Dora.Lib.X64Format

/-!
# Memory operands of the x64 assembler

The assembler tests for the registers RSP and RBP, but the escape values of ModRM and SIB are about
the low three bits, which RSP shares with R12 and RBP with R13. Without displacement a base R13 is
lost, and a base R12 without index is taken for the announcement of a SIB byte.

## Main definitions

* `Layout`: the bytes of an address
* `Spec`, `Spec.encode`: an instruction with a memory operand, as it is meant

## Main results

* `Spec.decode_encode_iff`: which encodings are decoded as they are meant
* `emit_eq_encode`: what the assembler emits is such an encoding
* `mem_operand_decodes_iff`: which memory operands are decoded as they were built
-/

namespace Dora.Asm

open Emission X64 List AddressForm MemInst UInt8 Register

attribute [local simp] emitU8 Address.setModrm Address.new build

/-! ### Fields of bytes -/

theorem fields_of_fin : ∀ (a : Fin 4) (b c : Fin 8),
    ((ofNat a <<< 6 ||| ofNat b <<< 3 ||| ofNat c).toNat = 64 * a + 8 * b + c) ∧
    ((ofNat b <<< 3 ||| (ofNat a <<< 6 ||| ofNat c)).toNat = 64 * a + 8 * b + c) := by
  decide

variable {mode reg rm : UInt8} (base : Register) (disp : Int32)

theorem modrm_toNat (hmode : mode < 4) (hreg : reg < 8) (hrm : rm < 8) :
    (mode <<< 6 ||| reg <<< 3 ||| rm).toNat = 64 * mode.toNat + 8 * reg.toNat + rm.toNat ∧
    (reg <<< 3 ||| (mode <<< 6 ||| rm)).toNat = 64 * mode.toNat + 8 * reg.toNat + rm.toNat := by
  have h := fields_of_fin ⟨mode.toNat, hmode⟩ ⟨reg.toNat, hreg⟩ ⟨rm.toNat, hrm⟩
  simpa only [UInt8.ofNat_toNat] using h

/-- The fields of a ModRM byte that is put together from an address and a register field. -/
theorem modrm_fields (hmode : mode < 4) (hreg : reg < 8) (hrm : rm < 8) :
    (reg <<< 3 ||| (mode <<< 6 ||| rm)).toNat / 64 = mode.toNat ∧
    (reg <<< 3 ||| (mode <<< 6 ||| rm)).toNat / 8 % 8 = reg.toNat ∧
    (reg <<< 3 ||| (mode <<< 6 ||| rm)).toNat % 8 = rm.toNat := by
  have h := (modrm_toNat hmode hreg hrm).2
  have hr : reg.toNat < 8 := hreg
  have hb : rm.toNat < 8 := hrm
  omega

theorem sib_fields (hmode : mode < 4) (hreg : reg < 8) (hrm : rm < 8) :
    (mode <<< 6 ||| reg <<< 3 ||| rm).toNat / 64 = mode.toNat ∧
    (mode <<< 6 ||| reg <<< 3 ||| rm).toNat / 8 % 8 = reg.toNat ∧
    (mode <<< 6 ||| reg <<< 3 ||| rm).toNat % 8 = rm.toNat := by
  have h := (modrm_toNat hmode hreg hrm).1
  have hr : reg.toNat < 8 := hreg
  have hb : rm.toNat < 8 := hrm
  omega

theorem toNat_and_seven (v : UInt8) : (v &&& 0b111).toNat = v.toNat % 8 := by
  exact Nat.and_two_pow_sub_one_eq_mod v.toNat 3

theorem and_seven_lt (v : UInt8) : v &&& 0b111 < 8 := by
  rw [lt_iff_toNat_lt, toNat_and_seven]
  exact Nat.mod_lt _ (by decide)

namespace Register

variable (r : Register)

theorem lowBits_lt : r.lowBits < 8 := and_seven_lt r.value

theorem lowBits_toNat : r.lowBits.toNat = r.value.toNat % 8 := toNat_and_seven r.value

theorem toNat_lt : r.value.toNat < 16 := r.value_lt

theorem needsRex_iff : r.needsRex = true ↔ 8 ≤ r.value.toNat := by
  rw [needsRex, decide_eq_true_iff, gt_iff_lt, lt_iff_toNat_lt]
  exact Nat.lt_iff_add_one_le

@[simp]
theorem regNumber_eq : regNumber r.needsRex r.lowBits.toNat = r.value.toNat := by
  have h := r.toNat_lt
  rw [regNumber, lowBits_toNat]
  by_cases hr : r.needsRex = true
  · rw [if_pos hr]
    have := r.needsRex_iff.mp hr
    omega
  · rw [if_neg hr]
    have := mt r.needsRex_iff.mpr hr
    omega

theorem ext_toNat {r s : Register} (h : r.value.toNat = s.value.toNat) : r = s := by
  obtain ⟨v, hv⟩ := r
  obtain ⟨w, hw⟩ := s
  obtain rfl : v = w := UInt8.toNat_inj.mp h
  rfl

end Register

theorem XmmRegister.regNumber_iff (r : XmmRegister) :
    r.value.toNat = regNumber r.needsRex r.lowBits.toNat ↔ r.value < 16 := by
  have hlow : r.lowBits.toNat = r.value.toNat % 8 := toNat_and_seven r.value
  have hrex : r.needsRex = true ↔ 8 ≤ r.value.toNat := by
    rw [needsRex, decide_eq_true_iff, gt_iff_lt, lt_iff_toNat_lt]
    exact Nat.lt_iff_add_one_le
  have hlt : r.value < 16 ↔ r.value.toNat < 16 := lt_iff_toNat_lt
  rw [regNumber, hlow, hlt]
  by_cases hr : r.needsRex = true
  · rw [if_pos hr]
    have := hrex.mp hr
    omega
  · rw [if_neg hr]
    have := mt hrex.mpr hr
    omega

theorem ScaleFactor.value_lt (s : ScaleFactor) : s.value < 4 := by
  cases s <;> decide

/-! ### Displacements -/

theorem leNat_le32 (v : UInt32) : leNat (le32 v) = v.toNat := by
  have h := v.toNat_lt
  simp only [le32, leNat, UInt32.toNat_toUInt8, UInt32.toNat_shiftRight]
  simp only [UInt32.toNat_ofNat, Nat.reduceMod, Nat.reducePow]
  omega

theorem signed_le32 (d : Int32) : signed 32 (leNat (le32 d.toUInt32)) = d.toInt := by
  rw [leNat_le32, signed]
  have hd : d.toInt = d.toBitVec.toInt := rfl
  have hn : d.toUInt32.toNat = d.toBitVec.toNat := rfl
  rw [hd, BitVec.toInt_eq_toNat_cond, hn]
  split <;> split <;> omega

theorem signed_int8 (d : Int32) (h : -128 ≤ d.toInt ∧ d.toInt < 128) :
    signed 8 (leNat [d.toInt8.toUInt8]) = d.toInt := by
  have hd : d.toInt8.toInt = d.toInt := by
    rw [Int32.toInt_toInt8]
    exact Int.bmod_eq_of_le (by simpa using h.1) (by simpa using h.2)
  have hn : leNat [d.toInt8.toUInt8] = d.toInt8.toBitVec.toNat := by
    rfl
  have ht : d.toInt8.toInt = d.toInt8.toBitVec.toInt := rfl
  rw [hn, signed, ← hd, ht, BitVec.toInt_eq_toNat_cond]
  split <;> split <;> omega

theorem readDisp_append {n : ℕ} {disp : List UInt8} (h : disp.length = n) (tail : List UInt8) :
    readDisp n (disp ++ tail) = some (signed (8 * n) (leNat disp), tail) := by
  rw [readDisp, if_pos (by rw [length_append]; omega), ← h, take_left, drop_left]

/-! ### Addresses -/

/-- The displacement in a mode. -/
def dispBytes (mode : UInt8) (disp : Int32) : List UInt8 :=
  if mode = 0b00 then [] else if mode = 0b01 then [disp.toInt8.toUInt8] else le32 disp.toUInt32

def sibByte (factor : ScaleFactor) (index base : Register) : UInt8 :=
  factor.value <<< 6 ||| index.lowBits <<< 3 ||| base.lowBits

/-- What stands in an encoded address: the REX bits of index and base, the fields of ModRM, and the
bytes behind it. -/
structure Layout where
  x : Bool
  b : Bool
  mode : UInt8
  rm : UInt8
  rest : List UInt8

def Layout.address (l : Layout) : Address where
  rex := (if l.b then 0x41 else 0) ||| if l.x then 0x42 else 0
  bytes := (l.mode <<< 6 ||| l.rm) :: l.rest

namespace AddressForm

@[simp]
def layout : AddressForm → Layout
  | .offset base disp => {
      x := false
      b := base.needsRex
      mode := Address.mode base disp
      rm := base.lowBits
      rest := (if base = RSP then [sibByte .one RSP base] else []) ++
        dispBytes (Address.mode base disp) disp }
  | .index idx factor disp => {
      x := idx.needsRex
      b := false
      mode := 0b00
      rm := RSP.lowBits
      rest := sibByte factor idx RBP :: le32 disp.toUInt32 }
  | .array base idx factor disp => {
      x := idx.needsRex
      b := base.needsRex
      mode := Address.mode base disp
      rm := RSP.lowBits
      rest := sibByte factor idx base :: dispBytes (Address.mode base disp) disp }
  | .rip disp => ⟨false, false, 0b00, RBP.lowBits, le32 disp.toUInt32⟩

/-- The index is not RSP. -/
def Valid : AddressForm → Prop
  | .index idx _ _ | .array _ idx _ _ => idx ≠ RSP
  | _ => True

/-- The operand that an address stands for. -/
def operand : AddressForm → MemOperand
  | .offset base disp => ⟨.reg base.value.toNat, none, disp.toInt⟩
  | .index idx factor disp => ⟨.none, some (idx.value.toNat, 2 ^ factor.value.toNat), disp.toInt⟩
  | .array base idx factor disp =>
    ⟨.reg base.value.toNat, some (idx.value.toNat, 2 ^ factor.value.toNat), disp.toInt⟩
  | .rip disp => ⟨.rip, none, disp.toInt⟩

/-- **The operands that are encoded**: R12 is no base without index, and R13 is a base only with a
displacement. -/
def Encodable : AddressForm → Prop
  | .offset base disp => base ≠ R12 ∧ ¬ (base = R13 ∧ disp = 0)
  | .array base _ _ disp => ¬ (base = R13 ∧ disp = 0)
  | _ => True

end AddressForm

theorem mode_lt : Address.mode base disp < 4 := by
  rw [Address.mode]
  split
  · decide
  · split <;> decide

theorem AddressForm.layout_lt (form : AddressForm) : form.layout.mode < 4 ∧ form.layout.rm < 8 := by
  cases form with
  | offset base disp => exact ⟨mode_lt base disp, base.lowBits_lt⟩
  | index idx factor disp => exact ⟨(by decide : 0 < 4), RSP.lowBits_lt⟩
  | array base idx factor disp => exact ⟨mode_lt base disp, RSP.lowBits_lt⟩
  | rip disp => exact ⟨(by decide : 0 < 4), RBP.lowBits_lt⟩

@[simp]
theorem setDisp_eq {address : Address} (h : address.bytes.length = 1 ∨ address.bytes.length = 2)
    (mode : UInt8) (disp : Int32) :
    address.setDisp mode disp =
      some { address with bytes := address.bytes ++ dispBytes mode disp } := by
  rw [Address.setDisp, dispBytes]
  by_cases h0 : mode = 0b00
  · rw [if_pos h0, if_pos h0, append_nil]
  · rw [if_neg h0, if_neg h0]
    by_cases h1 : mode = 0b01
    · rw [if_pos h1, if_pos h1, Address.setDisp8, if_pos h]
    · rw [if_neg h1, if_neg h1, Address.setDisp32, if_pos h]

@[simp]
theorem needsRex_RSP : RSP.needsRex = false := rfl

@[simp]
theorem needsRex_RBP : RBP.needsRex = false := rfl

/-- The functions of `Address` build the layout. -/
theorem AddressForm.build_eq {form : AddressForm} (h : form.Valid) :
    form.build = some form.layout.address := by
  cases form with
  | offset base disp =>
    have hm := mode_lt base disp
    by_cases hb : base = RSP
    · subst hb
      simp [Address.offset, Address.setSib, hm, Layout.address, sibByte]
    · simp [Address.offset, hm, hb, Layout.address]
  | index idx factor disp =>
    have hi : idx ≠ RSP := h
    simp [Address.index, hi, Layout.address]
    rfl
  | array base idx factor disp =>
    have hm := mode_lt base disp
    have hi : idx ≠ RSP := h
    simp [Address.array, Address.setSib, hm, hi, Layout.address, sibByte]
    by_cases hx : idx.needsRex = true <;> by_cases hb : base.needsRex = true <;> simp [hx, hb]
  | rip disp =>
    simp [Address.rip, Address.setDisp32, Layout.address]

/-! ### Decoding an address -/

theorem readDisp_dispBytes (tail : List UInt8) :
    readDisp (dispSize (Address.mode base disp).toNat)
      (dispBytes (Address.mode base disp) disp ++ tail) = some (disp.toInt, tail) := by
  rw [Address.mode]
  by_cases h0 : disp = 0 ∧ base ≠ RBP
  · rw [if_pos h0, h0.1]
    rfl
  · rw [if_neg h0]
    by_cases h1 : -128 ≤ disp ∧ disp < 128
    · rw [if_pos h1]
      have h := readDisp_append (show [disp.toInt8.toUInt8].length = 1 from rfl) tail
      rw [signed_int8 disp ⟨Int32.le_iff_toInt_le.mp h1.1, Int32.lt_iff_toInt_lt.mp h1.2⟩] at h
      exact h
    · rw [if_neg h1]
      have h := readDisp_append (show (le32 disp.toUInt32).length = 4 from rfl) tail
      rw [signed_le32] at h
      exact h

theorem length_dispBytes :
    (dispBytes (Address.mode base disp) disp).length = dispSize (Address.mode base disp).toNat := by
  rw [Address.mode]
  split
  · rfl
  · split <;> rfl

/-- No displacement means that there is none and the base is not RBP. -/
theorem mode_eq_zero_iff : (Address.mode base disp).toNat = 0 ↔ disp = 0 ∧ base ≠ RBP := by
  rw [Address.mode]
  by_cases h0 : disp = 0 ∧ base ≠ RBP
  · rw [if_pos h0]
    exact ⟨fun _ => h0, fun _ => rfl⟩
  · rw [if_neg h0]
    refine ⟨fun h => ?_, fun h => absurd h h0⟩
    split at h <;> cases h

theorem mode_ne_three : (Address.mode base disp).toNat ≠ 3 := by
  rw [Address.mode]
  split
  · decide
  · split <;> decide

theorem lowBits_eq_four_iff (r : Register) : r.lowBits.toNat = 4 ↔ r = RSP ∨ r = R12 := by
  have h := r.toNat_lt
  rw [r.lowBits_toNat]
  constructor
  · intro hlow
    have : r.value.toNat = 4 ∨ r.value.toNat = 12 := by omega
    exact this.imp (fun h => ext_toNat h) (fun h => ext_toNat h)
  · rintro (rfl | rfl) <;> rfl

theorem lowBits_eq_five_iff (r : Register) : r.lowBits.toNat = 5 ↔ r = RBP ∨ r = R13 := by
  have h := r.toNat_lt
  rw [r.lowBits_toNat]
  constructor
  · intro hlow
    have : r.value.toNat = 5 ∨ r.value.toNat = 13 := by omega
    exact this.imp (fun h => ext_toNat h) (fun h => ext_toNat h)
  · rintro (rfl | rfl) <;> rfl

/-- The escape for a missing base or the instruction pointer is met by R13 alone. -/
theorem escape_iff :
    (Address.mode base disp).toNat = 0 ∧ base.lowBits.toNat = 5 ↔ base = R13 ∧ disp = 0 := by
  rw [mode_eq_zero_iff, lowBits_eq_five_iff]
  constructor
  · rintro ⟨⟨hd, hb⟩, h⟩
    exact ⟨h.resolve_left hb, hd⟩
  · rintro ⟨rfl, hd⟩
    exact ⟨⟨hd, by decide⟩, .inr rfl⟩

section Decoding

variable {rex : Rex} (tail : List UInt8) {idx : Register}

theorem decodeMem_offset_iff (base : Register) (disp : Int32) (hx : rex.x = false)
    (hb : rex.b = base.needsRex) :
    decodeMem rex (Address.mode base disp).toNat base.lowBits.toNat
        ((offset base disp).layout.rest ++ tail) = some ((offset base disp).operand, tail) ↔
      (offset base disp).Encodable := by
  have hdisp := readDisp_dispBytes base disp tail
  by_cases hsp : base = RSP
  · -- the SIB byte says that there is no index
    have henc : (offset base disp).Encodable := by
      subst hsp
      exact ⟨by decide, fun h => absurd h.1 (by decide)⟩
    refine ⟨fun _ => henc, fun _ => ?_⟩
    subst hsp
    have hm := mode_ne_three RSP disp
    have hr : RSP.lowBits.toNat = 4 := rfl
    rw [decodeMem.eq_def, if_neg hm, if_pos hr]
    simp only [layout, if_pos, cons_append, nil_append]
    have hs : (sibByte .one RSP RSP).toNat = 0x24 := rfl
    rw [hs, if_neg (by omega), hdisp, hx, hb]
    rfl
  by_cases h12 : base = R12
  · -- one byte more is taken than there is
    refine ⟨fun h => ?_, fun h => absurd h12 h.1⟩
    have hr : base.lowBits.toNat = 4 := (lowBits_eq_four_iff base).mpr (.inr h12)
    rw [hr] at h
    have hlen := decodeMem_sib_length h
    simp only [layout, if_neg hsp, nil_append, length_append, length_dispBytes] at hlen
    omega
  have hr : base.lowBits.toNat ≠ 4 := fun h =>
    ((lowBits_eq_four_iff base).mp h).elim hsp h12
  rw [decodeMem.eq_def, if_neg (mode_ne_three base disp), if_neg hr]
  simp only [layout, if_neg hsp, nil_append]
  by_cases hesc : (Address.mode base disp).toNat = 0 ∧ base.lowBits.toNat = 5
  · -- the instruction pointer is taken for the base
    rw [if_pos hesc]
    refine ⟨fun h => ?_, fun h => absurd ((escape_iff base disp).mp hesc) h.2⟩
    obtain ⟨p, -, hp⟩ := Option.map_eq_some_iff.mp h
    cases hp
  · rw [if_neg hesc, hdisp, hb, regNumber_eq]
    exact ⟨fun _ => ⟨h12, fun h => hesc ((escape_iff base disp).mpr h)⟩, fun _ => rfl⟩

/-- An index is found again: RSP is the only register that means that there is none. -/
theorem index_eq (hi : idx ≠ RSP) (factor : ScaleFactor) (base : Register)
    (hx : rex.x = idx.needsRex) :
    (if regNumber rex.x ((sibByte factor idx base).toNat / 8 % 8) = 4 then none
      else some (regNumber rex.x ((sibByte factor idx base).toNat / 8 % 8),
        2 ^ ((sibByte factor idx base).toNat / 64))) =
      some (idx.value.toNat, 2 ^ factor.value.toNat) := by
  obtain ⟨hscale, hindex, -⟩ := sib_fields factor.value_lt idx.lowBits_lt base.lowBits_lt
  rw [sibByte, hscale, hindex, hx, regNumber_eq, if_neg]
  exact fun h => hi (ext_toNat h)

theorem decodeMem_array_iff (base : Register) (hi : idx ≠ RSP) (factor : ScaleFactor) (disp : Int32)
    (hx : rex.x = idx.needsRex) (hb : rex.b = base.needsRex) :
    decodeMem rex (Address.mode base disp).toNat RSP.lowBits.toNat
        ((array base idx factor disp).layout.rest ++ tail) =
          some ((array base idx factor disp).operand, tail) ↔
      (array base idx factor disp).Encodable := by
  obtain ⟨-, -, hbase⟩ := sib_fields factor.value_lt idx.lowBits_lt base.lowBits_lt
  have hr : RSP.lowBits.toNat = 4 := rfl
  rw [decodeMem.eq_def, if_neg (mode_ne_three base disp), if_pos hr]
  simp only [layout, cons_append]
  rw [index_eq hi factor base hx, sibByte, hbase]
  by_cases hesc : (Address.mode base disp).toNat = 0 ∧ base.lowBits.toNat = 5
  · -- the base is taken for none
    rw [if_pos hesc]
    refine ⟨fun h => ?_, fun h => absurd ((escape_iff base disp).mp hesc) h⟩
    obtain ⟨p, -, hp⟩ := Option.map_eq_some_iff.mp h
    cases hp
  · rw [if_neg hesc, readDisp_dispBytes, hb, regNumber_eq]
    exact ⟨fun _ h => hesc ((escape_iff base disp).mpr h), fun _ => rfl⟩

theorem decodeMem_index (hi : idx ≠ RSP) (factor : ScaleFactor) (disp : Int32)
    (hx : rex.x = idx.needsRex) :
    decodeMem rex 0 RSP.lowBits.toNat ((index idx factor disp).layout.rest ++ tail) =
      some ((index idx factor disp).operand, tail) := by
  obtain ⟨-, -, hbase⟩ := sib_fields factor.value_lt idx.lowBits_lt RBP.lowBits_lt
  have hdisp := readDisp_append (show (le32 disp.toUInt32).length = 4 from rfl) tail
  have hr : RSP.lowBits.toNat = 4 := rfl
  have h5 : True ∧ RBP.lowBits.toNat = 5 := ⟨trivial, rfl⟩
  rw [decodeMem.eq_def, if_neg (by omega), if_pos hr]
  simp only [layout, cons_append]
  rw [index_eq hi factor RBP hx, sibByte, hbase, if_pos h5, hdisp, signed_le32]
  rfl

theorem decodeMem_rip (disp : Int32) :
    decodeMem rex 0 RBP.lowBits.toNat ((rip disp).layout.rest ++ tail) =
      some ((rip disp).operand, tail) := by
  have hdisp := readDisp_append (show (le32 disp.toUInt32).length = 4 from rfl) tail
  have hr : RBP.lowBits.toNat = 5 := rfl
  rw [decodeMem.eq_def, if_neg (by omega), hr, if_neg (by omega), if_pos ⟨rfl, rfl⟩]
  simp only [layout]
  rw [hdisp, signed_le32]
  rfl

/-- **Decoding the bytes of an address** gives back the operand exactly if it is encodable. -/
theorem decodeMem_layout_iff {form : AddressForm} (h : form.Valid) (hx : rex.x = form.layout.x)
    (hb : rex.b = form.layout.b) :
    decodeMem rex form.layout.mode.toNat form.layout.rm.toNat (form.layout.rest ++ tail) =
      some (form.operand, tail) ↔ form.Encodable := by
  cases form with
  | offset base disp => exact decodeMem_offset_iff tail base disp hx hb
  | index idx factor disp => exact iff_of_true (decodeMem_index tail h factor disp hx) trivial
  | array base idx factor disp => exact decodeMem_array_iff tail base h factor disp hx hb
  | rip disp => exact iff_of_true (decodeMem_rip tail disp) trivial

end Decoding

/-! ### Instructions -/

/-- What stands in the register field: a register of 8, 32 or 64 bits, a vector register, or a digit
that extends the opcode. -/
inductive Operand
  | reg8 (r : Register)
  | reg32 (r : Register)
  | reg64 (r : Register)
  | xmm (r : XmmRegister)
  | digit32 (digit : UInt8)
  | digit64 (digit : UInt8)

namespace Operand

@[simp]
def w : Operand → Bool
  | reg64 _ | digit64 _ => true
  | _ => false

def number : Operand → ℕ
  | reg8 r | reg32 r | reg64 r | xmm r => r.value.toNat
  | digit32 d | digit64 d => d.toNat

/-- There are 16 vector registers. -/
def Encodable : Operand → Prop
  | xmm r => r.value < 16
  | _ => True

@[simp]
def lowBits : Operand → UInt8
  | reg8 r | reg32 r | reg64 r | xmm r => r.lowBits
  | digit32 d | digit64 d => d

@[simp]
def needsRex : Operand → Bool
  | reg8 r | reg32 r | reg64 r | xmm r => r.needsRex
  | digit32 _ | digit64 _ => false

/-- Without a prefix these numbers mean the high halves of other registers. -/
def isUniform : Operand → Bool
  | reg8 r => r.value > 3
  | _ => false

/-- The REX prefix, if there is one. -/
@[simp]
def rex (o : Operand) (l : Layout) : Option Rex :=
  if o.w || l.x || l.b || o.needsRex || o.isUniform then some ⟨o.w, o.needsRex, l.x, l.b⟩ else none

variable (o : Operand) (l : Layout)

theorem rex_getD : (o.rex l).getD .none = ⟨o.w, o.needsRex, l.x, l.b⟩ := by
  rw [rex]
  cases ho : o.w <;> cases hx : l.x <;> cases hb : l.b <;> cases hr : o.needsRex <;>
    cases hu : o.isUniform <;> rfl

theorem isUniform_of_rex_eq_none (h : o.rex l = none) : o.isUniform = false := by
  refine Bool.eq_false_iff.mpr fun hu => ?_
  rw [rex, hu, Bool.or_true, if_pos rfl] at h
  cases h

/-- Registers and digits are found again, and vector registers if they exist. -/
theorem number_iff (h : ∀ d, o = digit32 d ∨ o = digit64 d → d < 8) :
    o.number = regNumber o.needsRex o.lowBits.toNat ↔ o.Encodable := by
  cases o with
  | reg8 r | reg32 r | reg64 r => exact iff_of_true r.regNumber_eq.symm trivial
  | xmm r => exact r.regNumber_iff
  | digit32 d | digit64 d => exact iff_of_true rfl trivial

end Operand

/-- The parts of an instruction other than its memory operand. -/
structure Spec where
  prefixes : List UInt8
  opcode : List UInt8
  operand : Operand
  imm : List UInt8

namespace Spec

/-- The instruction that is meant. -/
def insn (s : Spec) (mem : MemOperand) : Insn where
  prefixes := s.prefixes
  w := s.operand.w
  opcode := s.opcode
  reg := s.operand.number
  high := false
  mem := mem
  imm := s.imm

/-- How it is encoded. -/
@[simp]
def encode (s : Spec) (l : Layout) : List UInt8 :=
  s.prefixes ++ (rexBytes (s.operand.rex l) ++
    (s.opcode ++ (s.operand.lowBits <<< 3 ||| (l.mode <<< 6 ||| l.rm)) :: (l.rest ++ s.imm)))

/-- The parts fit together: the immediate has the size that the opcode asks for, and registers of 8
bits are used only where they are meant. -/
structure WF (s : Spec) : Prop where
  prefixes : ∀ b ∈ s.prefixes, isLegacy b
  opcode : isOpcode s.opcode
  lowBits : s.operand.lowBits < 8
  imm : s.imm.length = immSize s.opcode s.operand.lowBits.toNat
  byte : isByteReg s.opcode → ∃ r, s.operand = .reg8 r

variable {s : Spec}

theorem WF.high (h : s.WF) (l : Layout) :
    (isByteReg s.opcode && (s.operand.rex l).isNone && decide (4 ≤ s.operand.lowBits.toNat)) =
      false := by
  refine Bool.eq_false_iff.mpr fun hne => ?_
  rw [Bool.and_eq_true, Bool.and_eq_true, decide_eq_true_iff] at hne
  obtain ⟨⟨hbyte, hrex⟩, hlow⟩ := hne
  obtain ⟨r, hr⟩ := h.byte hbyte
  have hu := s.operand.isUniform_of_rex_eq_none l (Option.isNone_iff_eq_none.mp hrex)
  rw [hr] at hu hlow
  have hle : ¬ r.value > 3 := of_decide_eq_false hu
  rw [gt_iff_lt, lt_iff_toNat_lt] at hle
  have h3 : (3 : UInt8).toNat = 3 := rfl
  have hmod : r.lowBits.toNat = r.value.toNat % 8 := r.lowBits_toNat
  have : 4 ≤ r.lowBits.toNat := hlow
  omega

/-- **Round trip**: the encoding is decoded as intended iff both operands are encodable. -/
theorem decode_encode_iff (h : s.WF) {form : AddressForm} (hvalid : form.Valid) :
    decode (s.encode form.layout) = some (s.insn form.operand) ↔
      s.operand.Encodable ∧ form.Encodable := by
  obtain ⟨hmode, hrm⟩ := form.layout_lt
  obtain ⟨hf1, hf2, hf3⟩ := modrm_fields hmode h.lowBits hrm
  have hrex := s.operand.rex_getD form.layout
  have hhigh := h.high form.layout
  rw [encode, decode_eq_some_iff h.prefixes h.opcode, hrex, hf1, hf2, hf3]
  · refine and_congr (s.operand.number_iff fun d hd => ?_)
      (decodeMem_layout_iff s.imm hvalid rfl rfl)
    have hlow := h.lowBits
    rcases hd with hd | hd <;> rw [hd] at hlow <;> exact hlow
  · rw [hf2, hrex]
    exact ⟨rfl, rfl, rfl, hhigh.symm⟩
  · rw [hf2]
    exact h.imm

end Spec

namespace MemInst

/-- What an instruction is meant to be. -/
def spec : MemInst → Spec
  | lea dest => ⟨[], [0x8D], .reg64 dest, []⟩
  | movqRa dest => ⟨[], [0x8B], .reg64 dest, []⟩
  | movbAr src => ⟨[], [0x88], .reg8 src, []⟩
  | movbAi src => ⟨[], [0xC6], .digit32 0, [src.uint8]⟩
  | movqAr src => ⟨[], [0x89], .reg64 src, []⟩
  | movqAi imm => ⟨[], [0xC7], .digit64 0, le32 imm.int32.toUInt32⟩
  | movlRa dest => ⟨[], [0x8B], .reg32 dest, []⟩
  | movlAr src => ⟨[], [0x89], .reg32 src, []⟩
  | movlAi imm => ⟨[], [0xC7], .digit32 0, le32 imm.uint32⟩
  | movzxbRa dest => ⟨[], [0x0F, 0xB6], .reg32 dest, []⟩
  | movsxblRa dest => ⟨[], [0x0F, 0xBE], .reg32 dest, []⟩
  | movsxbqRa dest => ⟨[], [0x0F, 0xBE], .reg64 dest, []⟩
  | movssRa dest => ⟨[0xF3], [0x0F, 0x10], .xmm dest, []⟩
  | movssAr src => ⟨[0xF3], [0x0F, 0x11], .xmm src, []⟩
  | movsdRa dest => ⟨[0xF2], [0x0F, 0x10], .xmm dest, []⟩
  | movsdAr src => ⟨[0xF2], [0x0F, 0x11], .xmm src, []⟩
  | cmpbAr rhs => ⟨[], [0x38], .reg8 rhs, []⟩
  | cmpbAi rhs => ⟨[], [0x80], .digit32 7, [rhs.uint8]⟩
  | cmplAr rhs => ⟨[], [0x39], .reg32 rhs, []⟩
  | cmplAi rhs =>
    if rhs.isInt8 then ⟨[], [0x83], .digit32 7, [rhs.int8.toUInt8]⟩
    else ⟨[], [0x81], .digit32 7, le32 rhs.uint32⟩
  | cmpqAr rhs => ⟨[], [0x39], .reg64 rhs, []⟩
  | cmpqAi rhs =>
    if rhs.isInt8 then ⟨[], [0x83], .digit64 7, [rhs.int8.toUInt8]⟩
    else ⟨[], [0x81], .digit64 7, le32 rhs.int32.toUInt32⟩
  | xchgqAr src => ⟨[], [0x87], .reg64 src, []⟩
  | xchglAr src => ⟨[], [0x87], .reg32 src, []⟩
  | cmpxchgqAr src => ⟨[], [0x0F, 0xB1], .reg64 src, []⟩
  | cmpxchglAr src => ⟨[], [0x0F, 0xB1], .reg32 src, []⟩
  | lockCmpxchgqAr src => ⟨[0xF0], [0x0F, 0xB1], .reg64 src, []⟩
  | lockCmpxchglAr src => ⟨[0xF0], [0x0F, 0xB1], .reg32 src, []⟩
  | andpsRa dest => ⟨[], [0x0F, 0x54], .xmm dest, []⟩
  | xorpsRa dest => ⟨[], [0x0F, 0x57], .xmm dest, []⟩
  | xorpdRa dest => ⟨[0x66], [0x0F, 0x57], .xmm dest, []⟩
  | testlAr rhs => ⟨[], [0x85], .reg32 rhs, []⟩
  | testlAi rhs => ⟨[], [0xF7], .digit32 0, le32 rhs.int32.toUInt32⟩
  | testqAr rhs => ⟨[], [0x85], .reg64 rhs, []⟩
  | testqAi rhs => ⟨[], [0xF7], .digit64 0, le32 rhs.int32.toUInt32⟩
  | xaddqAr src => ⟨[], [0x0F, 0xC1], .reg64 src, []⟩
  | xaddlAr src => ⟨[], [0x0F, 0xC1], .reg32 src, []⟩
  | lockXaddqAr src => ⟨[0xF0], [0x0F, 0xC1], .reg64 src, []⟩
  | lockXaddlAr src => ⟨[0xF0], [0x0F, 0xC1], .reg32 src, []⟩

/-- The immediate is in the range that the assembler accepts. -/
def Accepts : MemInst → Prop
  | movbAi imm | cmpbAi imm => imm.isInt8 || imm.isUint8
  | movlAi imm | cmplAi imm => imm.isInt32 || imm.isUint32
  | movqAi imm | cmpqAi imm | testlAi imm | testqAi imm => imm.isInt32
  | _ => True

end MemInst

section Families

variable (l : Layout) {d : UInt8}

theorem emitRex64ModrmAddress_eq (r : Register) :
    emitRex64ModrmAddress r l.address = bytes (rexBytes ((Operand.reg64 r).rex l)) := by
  obtain ⟨x, b, mode, rm, rest⟩ := l
  cases x <;> cases b <;> cases hr : r.needsRex <;>
    simp [emitRex64ModrmAddress, Layout.address, hr] <;>
    rfl

theorem emitRex32ModrmAddress_eq (r : Register) :
    emitRex32ModrmAddress r l.address = bytes (rexBytes ((Operand.reg32 r).rex l)) := by
  obtain ⟨x, b, mode, rm, rest⟩ := l
  cases x <;> cases b <;> cases hr : r.needsRex <;>
    simp [emitRex32ModrmAddress, Layout.address, hr] <;>
    rfl

theorem emitRexSseAddressOptional_eq (r : XmmRegister) :
    emitRexSseAddressOptional r l.address = bytes (rexBytes ((Operand.xmm r).rex l)) := by
  obtain ⟨x, b, mode, rm, rest⟩ := l
  cases x <;> cases b <;> cases hr : r.needsRex <;>
    simp [emitRexSseAddressOptional, Layout.address, hr] <;>
    rfl

theorem emitRex32AddressOptional_eq (d : UInt8) :
    emitRex32AddressOptional l.address = bytes (rexBytes ((Operand.digit32 d).rex l)) := by
  obtain ⟨x, b, mode, rm, rest⟩ := l
  cases x <;> cases b <;>
    simp [emitRex32AddressOptional, Layout.address] <;>
    rfl

theorem emitRex64Address_eq (d : UInt8) :
    emitRex64Address l.address = bytes (rexBytes ((Operand.digit64 d).rex l)) := by
  obtain ⟨x, b, mode, rm, rest⟩ := l
  cases x <;> cases b <;>
    simp [emitRex64Address, Layout.address] <;>
    rfl

theorem emitRex32ByteAddress_eq (r : Register) :
    emitRex32ByteAddress r l.address = bytes (rexBytes ((Operand.reg8 r).rex l)) := by
  have hr : r.needsRex = true → r.value > 3 := by
    intro h
    exact Nat.lt_of_lt_of_le (by decide) (r.needsRex_iff.mp h)
  obtain ⟨x, b, mode, rm, rest⟩ := l
  by_cases hv : r.value > 3
  · have hu : (Operand.reg8 r).isUniform = true := decide_eq_true hv
    cases x <;> cases b <;> cases hr : r.needsRex <;>
      simp [emitRex32ByteAddress, Layout.address, hu, hr, hv] <;>
      rfl
  · have hu : (Operand.reg8 r).isUniform = false := decide_eq_false hv
    have hn : r.needsRex = false := Bool.eq_false_iff.mpr (mt hr hv)
    cases x <;> cases b <;>
      simp [emitRex32ByteAddress, Layout.address, hu, hn, hv] <;>
      rfl

theorem emitAddress_eq (h : d < 8) :
    emitAddress d l.address = bytes ((d <<< 3 ||| (l.mode <<< 6 ||| l.rm)) :: l.rest) :=
  check_append h _

variable (opcode : UInt8)

theorem mem8_eq (r : Register) :
    mem8 opcode r l.address = bytes (Spec.encode ⟨[], [opcode], .reg8 r, []⟩ l) := by
  simp [mem8, emitRex32ByteAddress_eq, emitAddress_eq l r.lowBits_lt]

theorem mem32_eq (r : Register) :
    mem32 opcode r l.address = bytes (Spec.encode ⟨[], [opcode], .reg32 r, []⟩ l) := by
  simp [mem32, emitRex32ModrmAddress_eq, emitAddress_eq l r.lowBits_lt]

theorem mem64_eq (r : Register) :
    mem64 opcode r l.address = bytes (Spec.encode ⟨[], [opcode], .reg64 r, []⟩ l) := by
  simp [mem64, emitRex64ModrmAddress_eq, emitAddress_eq l r.lowBits_lt]

theorem extMem32_eq (r : Register) :
    extMem32 opcode r l.address = bytes (Spec.encode ⟨[], [0x0F, opcode], .reg32 r, []⟩ l) := by
  simp [extMem32, emitRex32ModrmAddress_eq, emitAddress_eq l r.lowBits_lt]

theorem extMem64_eq (r : Register) :
    extMem64 opcode r l.address = bytes (Spec.encode ⟨[], [0x0F, opcode], .reg64 r, []⟩ l) := by
  simp [extMem64, emitRex64ModrmAddress_eq, emitAddress_eq l r.lowBits_lt]

theorem sseMem_eq (r : XmmRegister) :
    sseMem opcode r l.address = bytes (Spec.encode ⟨[], [0x0F, opcode], .xmm r, []⟩ l) := by
  have hlow : r.lowBits < 8 := and_seven_lt r.value
  simp [sseMem, emitRexSseAddressOptional_eq, emitAddress_eq l hlow]

theorem digitMem32_eq (h : d < 8) :
    digitMem32 opcode d l.address = bytes (Spec.encode ⟨[], [opcode], .digit32 d, []⟩ l) := by
  simp [digitMem32, emitRex32AddressOptional_eq l d, emitAddress_eq l h]

theorem digitMem64_eq (h : d < 8) :
    digitMem64 opcode d l.address = bytes (Spec.encode ⟨[], [opcode], .digit64 d, []⟩ l) := by
  simp [digitMem64, emitRex64Address_eq l d, emitAddress_eq l h]

variable (ps op imm : List UInt8) (o : Operand)

theorem prefix_encode (p : UInt8) :
    emitU8 p ++ bytes (Spec.encode ⟨ps, op, o, imm⟩ l) =
      bytes (Spec.encode ⟨p :: ps, op, o, imm⟩ l) := rfl

theorem encode_imm :
    bytes (Spec.encode ⟨ps, op, o, []⟩ l) ++ bytes imm =
      bytes (Spec.encode ⟨ps, op, o, imm⟩ l) := by
  simp

end Families

/-- **All instructions are encoded alike.** -/
theorem emit_eq_encode {inst : MemInst} (h : inst.Accepts) (l : Layout) :
    inst.emit l.address = bytes (inst.spec.encode l) := by
  have h0 : 0 < 8 := by decide
  have h7 : 7 < 8 := by decide
  cases inst with
  | lea r => exact mem64_eq l 0x8D r
  | movqRa r => exact mem64_eq l 0x8B r
  | movbAr r => exact mem8_eq l 0x88 r
  | movbAi imm =>
    have hc : (imm.isInt8 || imm.isUint8) = true := h
    rw [emit, check_append hc, digitMem32_eq l 0xC6 h0]
    exact encode_imm l [] _ _ _
  | movqAr r => exact mem64_eq l 0x89 r
  | movqAi imm =>
    have hc : imm.isInt32 = true := h
    rw [emit, check_append hc, digitMem64_eq l 0xC7 h0]
    exact encode_imm l [] _ _ _
  | movlRa r => exact mem32_eq l 0x8B r
  | movlAr r => exact mem32_eq l 0x89 r
  | movlAi imm =>
    have hc : (imm.isInt32 || imm.isUint32) = true := h
    rw [emit, check_append hc, digitMem32_eq l 0xC7 h0]
    exact encode_imm l [] _ _ _
  | movzxbRa r => exact extMem32_eq l 0xB6 r
  | movsxblRa r => exact extMem32_eq l 0xBE r
  | movsxbqRa r => exact extMem64_eq l 0xBE r
  | movssRa r | movssAr r | movsdRa r | movsdAr r | xorpdRa r =>
    rw [emit, sseMem_eq, prefix_encode]
    rfl
  | cmpbAr r => exact mem8_eq l 0x38 r
  | cmpbAi imm =>
    have hc : (imm.isInt8 || imm.isUint8) = true := h
    rw [emit, check_append hc, digitMem32_eq l 0x80 h7]
    exact encode_imm l [] _ _ _
  | cmplAr r => exact mem32_eq l 0x39 r
  | cmplAi imm =>
    have hc : (imm.isInt32 || imm.isUint32) = true := h
    rw [emit, check_append hc, spec]
    by_cases h8 : imm.isInt8 = true
    · rw [if_pos h8, if_pos h8, digitMem32_eq l 0x83 h7]
      exact encode_imm l [] _ _ _
    · rw [if_neg h8, if_neg h8, digitMem32_eq l 0x81 h7]
      exact encode_imm l [] _ _ _
  | cmpqAr r => exact mem64_eq l 0x39 r
  | cmpqAi imm =>
    have hc : imm.isInt32 = true := h
    rw [emit, check_append hc, spec]
    by_cases h8 : imm.isInt8 = true
    · rw [if_pos h8, if_pos h8, digitMem64_eq l 0x83 h7]
      exact encode_imm l [] _ _ _
    · rw [if_neg h8, if_neg h8, digitMem64_eq l 0x81 h7]
      exact encode_imm l [] _ _ _
  | xchgqAr r => exact mem64_eq l 0x87 r
  | xchglAr r => exact mem32_eq l 0x87 r
  | cmpxchgqAr r => exact extMem64_eq l 0xB1 r
  | cmpxchglAr r => exact extMem32_eq l 0xB1 r
  | lockCmpxchgqAr r | lockXaddqAr r =>
    rw [emit, extMem64_eq, emitLockPrefix, prefix_encode]
    rfl
  | lockCmpxchglAr r | lockXaddlAr r =>
    rw [emit, extMem32_eq, emitLockPrefix, prefix_encode]
    rfl
  | andpsRa r => exact sseMem_eq l 0x54 r
  | xorpsRa r => exact sseMem_eq l 0x57 r
  | testlAr r => exact mem32_eq l 0x85 r
  | testlAi imm =>
    have hc : imm.isInt32 = true := h
    rw [emit, check_append hc, digitMem32_eq l 0xF7 h0]
    exact encode_imm l [] _ _ _
  | testqAr r => exact mem64_eq l 0x85 r
  | testqAi imm =>
    have hc : imm.isInt32 = true := h
    rw [emit, check_append hc, digitMem64_eq l 0xF7 h0]
    exact encode_imm l [] _ _ _
  | xaddqAr r => exact extMem64_eq l 0xC1 r
  | xaddlAr r => exact extMem32_eq l 0xC1 r

section WellFormed

variable {opcode : List UInt8} (hop : isOpcode opcode)

include hop

theorem Spec.wf_reg {prefixes : List UInt8} (hp : prefixes.all isLegacy = true) {o : Operand}
    (ho : o.lowBits < 8) (himm : immSize opcode o.lowBits.toNat = 0)
    (hb : isByteReg opcode = false) : (Spec.mk prefixes opcode o []).WF :=
  ⟨all_eq_true.mp hp, hop, ho, himm.symm, fun h => absurd h (by rw [hb]; decide)⟩

theorem Spec.wf_imm {o : Operand} (ho : o.lowBits < 8) {imm : List UInt8}
    (himm : imm.length = immSize opcode o.lowBits.toNat) (hb : isByteReg opcode = false) :
    (Spec.mk [] opcode o imm).WF :=
  ⟨fun _ h => (nomatch h), hop, ho, himm, fun h => absurd h (by rw [hb]; decide)⟩

end WellFormed

theorem MemInst.spec_wf (inst : MemInst) : inst.spec.WF := by
  have hxmm (r : XmmRegister) : r.lowBits < 8 := and_seven_lt r.value
  cases inst with
  | movbAr r | cmpbAr r =>
    exact ⟨fun _ h => (nomatch h), rfl, r.lowBits_lt, rfl, fun _ => ⟨r, rfl⟩⟩
  | movbAi imm | movqAi imm | movlAi imm | testlAi imm | testqAi imm | cmpbAi imm =>
    exact Spec.wf_imm rfl (by decide) rfl rfl
  | cmplAi imm | cmpqAi imm =>
    rw [spec]
    split <;> exact Spec.wf_imm rfl (by decide) rfl rfl
  | movssRa r | movssAr r | movsdRa r | movsdAr r | andpsRa r | xorpsRa r | xorpdRa r =>
    exact Spec.wf_reg rfl rfl (hxmm r) rfl rfl
  | _ r =>
    exact Spec.wf_reg rfl rfl r.lowBits_lt rfl rfl

/-- **Memory operands**: whatever the instruction and however its address is built, code is emitted,
and decoding all of it gives the instruction back, with base, index, scale, displacement and
register operand, exactly if the address and the register operand are encodable. -/
theorem mem_operand_decodes_iff {inst : MemInst} (hinst : inst.Accepts) {form : AddressForm}
    (hform : form.Valid) :
    ∃ code, inst.emitWith form = bytes code ∧ (decode code = some (inst.spec.insn form.operand) ↔
        inst.spec.operand.Encodable ∧ form.Encodable) := by
  refine ⟨inst.spec.encode form.layout, ?_, Spec.decode_encode_iff inst.spec_wf hform⟩
  rw [emitWith, build_eq hform]
  exact emit_eq_encode hinst form.layout

theorem mem_operand_decodes_iff_lea :
    ∃ code, (lea RAX).emitWith (.array R8 R12 .eight 0x1000) = bytes code ∧
      decode code = some ((lea RAX).spec.insn ⟨.reg 8, some (12, 8), 0x1000⟩) := by
  have haccepts : (lea RAX).Accepts := trivial
  have hvalid : (array R8 R12 .eight 0x1000).Valid := (by decide : R12 ≠ RSP)
  obtain ⟨code, hcode, hiff⟩ := mem_operand_decodes_iff haccepts hvalid
  refine ⟨code, hcode, hiff.mpr ⟨trivial, fun h => ?_⟩⟩
  exact absurd h.1 (by decide)

/-- An address that is R12 alone lacks its SIB byte: the code ends too early. -/
theorem not_decodes_base_R12 :
    (lea RAX).emitWith (.offset R12 0) = bytes [0x49, 0x8D, 0x04] ∧
      decode [0x49, 0x8D, 0x04] = none := by
  decide

end Dora.Asm
