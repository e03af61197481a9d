import Dora.Asm.BootsX64
import Dora.Asm.X64Labels

/-!
# The instructions of the two x64 assemblers

The assembler of the bootstrap compiler emits the same bytes as the other one, with two exceptions:
its `setSib` sets the REX bit of the index if the base needs it, and its `isInt32` accepts numbers
of 33 bits.

## Main definitions

* `Call.Agrees`: the calls that meet neither exception

## Main results

* `Boots.emit_eq`, `Boots.emitMem_eq`: the instructions that both have are encoded alike
* `Boots.build_eq`: so are addresses, up to the REX bit of the index
-/

namespace Dora.Asm

open Emission Fixups X64 Asm.Address

namespace Boots

variable {r : Register} {raxOpcode : UInt8}

/-! ### Numbers -/

variable (v : UInt8)

@[simp]
theorem toUInt8_toInt32 : toUInt8 (toInt32 v) = v := by
  simp [toUInt8, toInt32]

theorem toUInt8_or (x y : Int32) : toUInt8 (x ||| y) = toUInt8 x ||| toUInt8 y := by
  simp [toUInt8]

theorem toUInt8_add (x y : Int32) : toUInt8 (x + y) = toUInt8 x + toUInt8 y := by
  simp [toUInt8]

theorem toInt_toInt32 : (toInt32 v).toInt = v.toNat := by
  have h := v.toNat_lt
  have hb : (toInt32 v).toInt = v.toUInt32.toBitVec.toInt := rfl
  have hn : v.toUInt32.toBitVec.toNat = v.toNat := by simp
  rw [hb, BitVec.toInt_eq_toNat_of_lt (by omega), hn]

theorem shiftLeft_of_fin : ∀ v : Fin 256,
    toUInt8 (toInt32 (UInt8.ofNat v) <<< 3) = UInt8.ofNat v <<< 3 ∧
    toUInt8 (toInt32 (UInt8.ofNat v) <<< 6) = UInt8.ofNat v <<< 6 := by
  decide +kernel

theorem toUInt8_shiftLeft :
    toUInt8 (toInt32 v <<< 3) = v <<< 3 ∧ toUInt8 (toInt32 v <<< 6) = v <<< 6 := by
  have h := shiftLeft_of_fin ⟨v.toNat, v.toNat_lt⟩
  simpa only [UInt8.ofNat_toNat] using h

theorem toInt32_lt_iff (w : UInt8) : toInt32 v < toInt32 w ↔ v < w := by
  rw [Int32.lt_iff_toInt_lt, toInt_toInt32, toInt_toInt32, UInt8.lt_iff_toNat_lt]
  exact Int.ofNat_lt

theorem int32Bytes_eq (v : Int32) : int32Bytes v = le32 v.toUInt32 := by
  have h : (Int32.toUInt32 255).toUInt8 = 255 := rfl
  have hand (v : UInt8) : v &&& 255 = v := UInt8.and_neg_one
  simp [int32Bytes, le32, toUInt8, shiftRightLogical, h, hand]

theorem toUInt8_shiftRight (v : Int32) :
    toUInt8 (v >>> 8) = (v.toUInt32 >>> 8).toUInt8 ∧
    toUInt8 (v >>> 16) = (v.toUInt32 >>> 16).toUInt8 ∧
    toUInt8 (v >>> 24) = (v.toUInt32 >>> 24).toUInt8 := by
  refine ⟨?_, ?_, ?_⟩
  all_goals
    apply UInt8.toBitVec_inj.mp
    apply BitVec.eq_of_getLsbD_eq
    intro i hi
    simp [toUInt8, BitVec.getLsbD_sshiftRight]
    rw [if_pos (by omega), decide_eq_false (show ¬ 32 ≤ i by omega)]
    simp

theorem toUInt32_toInt32 (x : Int64) : x.toInt32.toUInt32 = x.toUInt64.toUInt32 := by
  apply UInt32.toBitVec_inj.mp
  simp [BitVec.signExtend_eq_setWidth_of_le]

theorem toUInt8_toInt8 (x : Int64) : x.toInt8.toUInt8 = x.toUInt64.toUInt8 := by
  apply UInt8.toBitVec_inj.mp
  simp [BitVec.signExtend_eq_setWidth_of_le]

/-! ### Operands -/

@[simp]
theorem lowBits_eq (r : Register) : lowBits r = toInt32 r.lowBits := by
  simp [lowBits, regValue, Register.lowBits, toInt32]

@[simp]
theorem xmmLowBits_eq (r : XmmRegister) : xmmLowBits r = toInt32 r.lowBits := by
  simp [xmmLowBits, XmmRegister.lowBits, toInt32]

@[simp]
theorem needsRexBit_eq (r : Register) : needsRexBit r = r.needsRex :=
  decide_eq_decide.mpr (toInt32_lt_iff 7 r.value)

@[simp]
theorem xmmNeedsRexBit_eq (r : XmmRegister) : xmmNeedsRexBit r = r.needsRex :=
  decide_eq_decide.mpr (toInt32_lt_iff 7 r.value)

theorem toUInt8_condition (base : Int32) (condition : Condition) :
    toUInt8 (base + conditionToInt32 condition) = toUInt8 base + condition.int := by
  rw [toUInt8_add]
  cases condition <;> rfl

theorem toUInt8_lowBits (base : Int32) (r : Register) :
    toUInt8 (base + lowBits r) = toUInt8 base + r.lowBits := by
  rw [toUInt8_add, lowBits_eq, toUInt8_toInt32]

/-! ### Helpers -/

variable (imm : Immediate)

theorem emitInt32_eq : emitInt32 (immToInt32 imm) = emitU32 imm.int32.toUInt32 := by
  rw [emitInt32, int32Bytes_eq]
  rfl

theorem emitInt32_eq_uint32 : emitInt32 (immToInt32 imm) = emitU32 imm.uint32 := by
  rw [emitInt32, int32Bytes_eq, immToInt32, toUInt32_toInt32]
  rfl

theorem emitInt64_eq : emitInt64 (immToInt64 imm) = emitU64 imm.int64.toUInt64 := by
  simp [emitInt64, emitInt32, int32Bytes_eq, toUInt32_toInt32, emitU64, le64, immToInt64,
    Immediate.int64]

theorem immToUInt8_eq : immToUInt8 imm = imm.int8.toUInt8 := (toUInt8_toInt8 imm.value).symm

@[simp]
theorem emitByte_eq (value : UInt8) : emitByte value = emitU8 value := rfl

@[simp]
theorem emitRex_eq (w r x b : Bool) : emitRex w r x b = Asm.emitRex w r x b := by
  cases w <;> cases r <;> cases x <;> cases b <;> rfl

@[simp]
theorem emitRex32RmFieldOptional_eq (r : Register) :
    emitRex32RmFieldOptional r = emitRex32RmOptional r := by
  simp [emitRex32RmFieldOptional, emitRex32RmOptional]

@[simp]
theorem emitRex64RmField_eq (r : Register) : emitRex64RmField r = emitRex64Rm r := by
  simp [emitRex64RmField, emitRex64Rm]

@[simp]
theorem rexOf_eq (base : UInt8) (address : Address) (b : Bool) :
    rexOf (toInt32 base) address b = base ||| address.rex ||| rexR b := by
  rw [rexOf, toUInt8_or, toUInt8_or, toUInt8_toInt32, toUInt8_toInt32]
  cases b <;> rfl

@[simp]
theorem emitRexAddress_eq (base : UInt8) (address : Address) :
    toUInt8 (toInt32 base ||| toInt32 address.rex) = base ||| address.rex := by
  rw [toUInt8_or, toUInt8_toInt32, toUInt8_toInt32]

@[simp]
theorem emitModRm_eq (mode reg rm : UInt8) :
    emitModRm (toInt32 mode) (toInt32 reg) (toInt32 rm) = emitModrm mode reg rm := by
  have h4 : toInt32 mode < 4 ↔ mode < 4 := toInt32_lt_iff mode 4
  have h8 (v : UInt8) : toInt32 v < 8 ↔ v < 8 := toInt32_lt_iff v 8
  rw [emitModRm, emitModrm, toUInt8_or, toUInt8_or, (toUInt8_shiftLeft mode).2,
    (toUInt8_shiftLeft reg).1, toUInt8_toInt32]
  simp only [check, h4, h8]
  by_cases hm : mode < 4 <;> by_cases hr : reg < 8 <;> by_cases hb : rm < 8 <;>
    simp [hm, hr, hb]

@[simp]
theorem emitModRm_registers (reg rm : UInt8) :
    emitModRm 3 (toInt32 reg) (toInt32 rm) = emitModrm 3 reg rm := emitModRm_eq 3 reg rm

variable (digit opcode : UInt8) (address : Address)

@[simp]
theorem emitModRmOpcode_eq (r : Register) :
    emitModRmOpcode (toInt32 digit) r = emitModrmOpcode digit r := by
  simp [emitModRmOpcode, emitModrmOpcode]

@[simp]
theorem emitAddress_eq (d : UInt8) (address : Address) :
    emitAddress (toInt32 d) address = Asm.emitAddress d address := by
  have h8 : toInt32 d < 8 ↔ d < 8 := toInt32_lt_iff d 8
  rw [emitAddress, Asm.emitAddress]
  simp only [h8]
  cases address.bytes with
  | nil => rfl
  | cons m rest =>
    dsimp only
    rw [toUInt8_or, (toUInt8_shiftLeft d).1, toUInt8_toInt32]

/-! ### Families -/

/-- **Two registers**. -/
theorem regs_eq (r rm : Register) :
    regs32 opcode r rm = Asm.regs32 opcode r rm ∧ regs64 opcode r rm = Asm.regs64 opcode r rm ∧
    extRegs32 opcode r rm = Asm.extRegs32 opcode r rm ∧
    extRegs64 opcode r rm = Asm.extRegs64 opcode r rm ∧
    extRegsByte opcode r rm = Asm.extRegsByte opcode r rm := by
  have hbyte : regValue rm > 3 ↔ rm.value > 3 := toInt32_lt_iff 3 rm.value
  simp [regs32, Asm.regs32, regs64, Asm.regs64, extRegs32, Asm.extRegs32, extRegs64, Asm.extRegs64,
    extRegsByte, Asm.extRegsByte, emitRex32ModRmOptional, emitRex32Optional, emitRex64ModRm,
    emitRex64Modrm, emitRex32ModRmByteOptional, emitRex32ByteOptional, emitModRmReg,
    emitModrmRegisters, hbyte]

/-- **One register**, with a digit that extends the opcode. -/
theorem unary32_eq (digit : UInt8) (r : Register) :
    unary32 opcode (toInt32 digit) r = Asm.unary32 opcode digit r := by
  simp [unary32, Asm.unary32]

theorem unary64_eq (digit : UInt8) (r : Register) :
    unary64 opcode (toInt32 digit) r = Asm.unary64 opcode digit r := by
  simp [unary64, Asm.unary64]

theorem shiftImm32_eq (r : Register) (imm : Immediate) :
    shiftImm32 (toInt32 digit) r imm = Asm.shiftImm32 digit r imm := by
  rw [shiftImm32, unary32_eq, immToUInt8_eq]
  rfl

theorem shiftImm64_eq (r : Register) (imm : Immediate) :
    shiftImm64 (toInt32 digit) r imm = Asm.shiftImm64 digit r imm := by
  rw [shiftImm64, unary64_eq, immToUInt8_eq]
  rfl

/-- **Vector registers**. -/
theorem sse_eq (w : Bool) (opcode : UInt8) (x y : XmmRegister) (r : Register) :
    sseRegs opcode x y = Asm.sseRegs opcode x y ∧
    sseReg w opcode x r = Asm.sseReg w opcode x r ∧
    regSse w opcode r x = Asm.regSse w opcode r x := by
  simp [sseRegs, Asm.sseRegs, sseReg, Asm.sseReg, regSse, Asm.regSse, emitRexSseModRmOptional,
    emitRexSseModrmOptional, emitRexOptional, Asm.emitRexOptional, emitModRmSseRegisters,
    emitModrmSseRegisters]

/-- **A memory operand** and a register. -/
theorem mem_eq (r : Register) (x : XmmRegister) (address : Address) :
    mem8 opcode r address = Asm.mem8 opcode r address ∧
    mem32 opcode r address = Asm.mem32 opcode r address ∧
    mem64 opcode r address = Asm.mem64 opcode r address ∧
    extMem32 opcode r address = Asm.extMem32 opcode r address ∧
    extMem64 opcode r address = Asm.extMem64 opcode r address ∧
    sseMem opcode x address = Asm.sseMem opcode x address := by
  have hbyte : regValue r > 3 ↔ r.value > 3 := toInt32_lt_iff 3 r.value
  have h32 (b : Bool) : rexOf 0x40 address b = 0x40 ||| address.rex ||| rexR b := rexOf_eq 0x40 ..
  have h64 (b : Bool) : rexOf 0x48 address b = 0x48 ||| address.rex ||| rexR b := rexOf_eq 0x48 ..
  simp [mem8, Asm.mem8, mem32, Asm.mem32, mem64, Asm.mem64, extMem32, Asm.extMem32, extMem64,
    Asm.extMem64, sseMem, Asm.sseMem, emitRex32ModRmAddressByteOptional, emitRex32ByteAddress,
    emitRex32ModRmAddressOptional, emitRex32ModrmAddress, emitRex64ModRmAddress,
    emitRex64ModrmAddress, emitRexSseAddressOptional, Asm.emitRexSseAddressOptional,
      hbyte, h32, h64,
    or_comm]

theorem emitRex32AddressOptional_eq :
    emitRex32AddressOptional address = Asm.emitRex32AddressOptional address :=
  if_congr Iff.rfl (congrArg emitU8 (emitRexAddress_eq 0x40 address)) rfl

theorem emitRex64Address_eq : emitRex64Address address = Asm.emitRex64Address address :=
  congrArg emitU8 (emitRexAddress_eq 0x48 address)

/-! ### Immediates -/

theorem check_append_congr {p q : Prop} [Decidable p] [Decidable q] {e e' : Emission}
    (hpq : q → p) (he : q → e = e') (h : check q ++ e' ≠ fail) : check p ++ e = check q ++ e' := by
  by_cases hq : q
  · rw [check_append (hpq hq), check_append hq, he hq]
  · rw [check, if_neg hq] at h
    exact absurd (fail_append e') h

theorem isInt32_of {imm : Immediate} (h : imm.isInt32 = true) : isInt32 imm = true := by
  have h := of_decide_eq_true h
  exact decide_eq_true (by omega)

theorem isInt32_or_of {imm : Immediate} (h : (imm.isInt32 || imm.isUint32) = true) :
    (isInt32 imm || isUInt32 imm) = true := by
  rw [Bool.or_eq_true] at h ⊢
  exact h.imp_left isInt32_of

theorem emitAlu64Imm_eq {imm : Immediate}
    (h : Asm.emitAlu64Imm r imm digit raxOpcode ≠ fail) :
    emitAlu64Imm r imm (toInt32 digit) raxOpcode = Asm.emitAlu64Imm r imm digit raxOpcode := by
  have hm : emitModRm 3 (toInt32 digit) (toInt32 r.lowBits) = emitModrmOpcode digit r :=
    emitModRm_eq 3 digit r.lowBits
  rw [emitAlu64Imm, emitRex64RmField_eq, lowBits_eq, hm, emitInt32_eq, immToUInt8_eq,
    append_assoc (check (isInt32 imm = true))]
  rw [Asm.emitAlu64Imm, append_assoc (check (imm.isInt32 = true))] at h ⊢
  exact check_append_congr isInt32_of (fun _ => rfl) h

theorem emitAlu32Imm_eq {imm : Immediate}
    (h : Asm.emitAlu32Imm r imm digit raxOpcode ≠ fail) :
    emitAlu32Imm r imm (toInt32 digit) raxOpcode = Asm.emitAlu32Imm r imm digit raxOpcode := by
  rw [emitAlu32Imm, emitRex32RmFieldOptional_eq, emitModRmOpcode_eq, emitInt32_eq, immToUInt8_eq,
    append_assoc (check (isInt32 imm = true))]
  rw [Asm.emitAlu32Imm, append_assoc (check (imm.isInt32 = true))] at h ⊢
  exact check_append_congr isInt32_of (fun _ => rfl) h

end Boots

/-! ### Instructions -/

/-- The immediate of `movq` is not one of those that are taken for a number of 32 bits only by the
assembler of the bootstrap compiler. -/
def Inst.Agrees : Inst → Prop
  | movqRi _ imm =>
    ¬ (2 ^ 31 ≤ imm.value.toInt ∧ imm.value.toInt < 2 ^ 32 ∨
      -2 ^ 32 ≤ imm.value.toInt ∧ imm.value.toInt < -2 ^ 31)
  | _ => True

/-- Base and index need the same REX bit. -/
def AddressForm.Agrees : AddressForm → Prop
  | .index idx _ _ => idx.needsRex = false
  | .array base idx _ _ => base.needsRex = idx.needsRex
  | _ => True

/-- **The calls that both assemblers treat alike.** -/
def Call.Agrees : Call → Prop
  | .inst i => i.Agrees
  | .mem _ form => form.Agrees
  | _ => True

namespace Boots

theorem isInt32_eq {dest : Register} {imm : Immediate} (h : (Inst.movqRi dest imm).Agrees) :
    isInt32 imm = imm.isInt32 := by
  have h : ¬ (2 ^ 31 ≤ imm.value.toInt ∧ imm.value.toInt < 2 ^ 32 ∨
      -2 ^ 32 ≤ imm.value.toInt ∧ imm.value.toInt < -2 ^ 31) := h
  exact decide_eq_decide.mpr (by omega)

/-- **Instructions without a memory operand** that both assemblers have and accept. -/
theorem emit_eq {inst : Inst} (hagrees : inst.Agrees) (h : inst.emit ≠ fail)
    (hboots : emit inst ≠ fail) : emit inst = inst.emit := by
  cases inst with
  | addlRi | subqRi32 | roundssRi | roundsdRi => exact absurd rfl hboots
  | addlRr d s | andlRr d s | cmplRr d s | movlRr d s | orlRr d s | sublRr d s | testlRr d s
  | xorlRr d s | addqRr d s | andqRr d s | cmpqRr d s | movqRr d s | movsxlqRr d s | orqRr d s
  | subqRr d s | testqRr d s | xorqRr d s | imullRr d s | lzcntlRr d s | popcntlRr d s
  | tzcntlRr d s | imulqRr d s | lzcntqRr d s | popcntqRr d s | tzcntqRr d s | movsxbqRr d s
  | movsxblRr d s | movzxbRr d s => simp only [emit, Inst.emit, emitByte_eq, regs_eq]
  | cmovl c d s | cmovq c d s =>
    simp only [emit, toUInt8_condition, regs_eq]
    rfl
  | addssRr d s | addsdRr d s | cvtsd2ssRr d s | cvtss2sdRr d s | divssRr d s | divsdRr d s
  | movsdRr d s | movssRr d s | mulssRr d s | mulsdRr d s | pxorRr d s | sqrtssRr d s
  | sqrtsdRr d s | subssRr d s | subsdRr d s | ucomissRr d s | ucomisdRr d s | xorpsRr d s =>
    simp only [emit, Inst.emit, emitByte_eq, (sse_eq false _ _ _ RAX).1]
  | cvtsi2ssdRr d s | cvtsi2ssqRr d s | cvtsi2sddRr d s | cvtsi2sdqRr d s | movdRx s d
  | movdXr d s | movqRx s d | movqXr d s =>
    simp only [emit, Inst.emit, emitByte_eq, (sse_eq _ _ d d _).2.1]
  | cvttsd2sidRr d s | cvttsd2siqRr d s | cvttss2sidRr d s | cvttss2siqRr d s =>
    simp only [emit, Inst.emit, emitByte_eq, (sse_eq _ _ s s _).2.2]
  | cdq | int3 | nop | retq => rfl
  | cqo => exact congrArg (· ++ emitU8 0x99) (emitRex_eq true false false false)
  | callR r => exact unary32_eq 0xFF 2 r
  | idivlR r => exact unary32_eq 0xF7 7 r
  | idivqR r => exact unary64_eq 0xF7 7 r
  | jmpR r => exact unary32_eq 0xFF 4 r
  | negl r => exact unary32_eq 0xF7 3 r
  | negq r => exact unary64_eq 0xF7 3 r
  | notl r => exact unary32_eq 0xF7 2 r
  | notq r => exact unary64_eq 0xF7 2 r
  | rollR r => exact unary32_eq 0xD3 0 r
  | rolqR r => exact unary64_eq 0xD3 0 r
  | rorlR r => exact unary32_eq 0xD3 1 r
  | rorqR r => exact unary64_eq 0xD3 1 r
  | sarlR r => exact unary32_eq 0xD3 7 r
  | sarqR r => exact unary64_eq 0xD3 7 r
  | shllR r => exact unary32_eq 0xD3 4 r
  | shlqR r => exact unary64_eq 0xD3 4 r
  | shrlR r => exact unary32_eq 0xD3 5 r
  | shrqR r => exact unary64_eq 0xD3 5 r
  | sarlRi r imm => exact shiftImm32_eq 7 r imm
  | sarqRi r imm => exact shiftImm64_eq 7 r imm
  | shllRi r imm => exact shiftImm32_eq 4 r imm
  | shlqRi r imm => exact shiftImm64_eq 4 r imm
  | shrlRi r imm => exact shiftImm32_eq 5 r imm
  | shrqRi r imm => exact shiftImm64_eq 5 r imm
  | addqRi r imm => exact emitAlu64Imm_eq 0 h
  | andqRi r imm => exact emitAlu64Imm_eq 4 h
  | cmpqRi r imm => exact emitAlu64Imm_eq 7 h
  | subqRi r imm => exact emitAlu64Imm_eq 5 h
  | cmplRi r imm => exact emitAlu32Imm_eq 7 h
  | xorlRi r imm => exact emitAlu32Imm_eq 6 h
  | pushqR r | popqR r =>
    rw [emit, Inst.emit, emitRex32RmFieldOptional_eq, toUInt8_lowBits]
    rfl
  | movlRi r imm =>
    rw [emit, emitRex32RmFieldOptional_eq, toUInt8_lowBits, emitInt32_eq, append_assoc,
      append_assoc]
    rw [Inst.emit, append_assoc, append_assoc] at h ⊢
    exact check_append_congr isInt32_of (fun _ => rfl) h
  | movqRi r imm =>
    have hm : emitModRmOpcode 0 r = emitModrmOpcode 0 r := emitModRmOpcode_eq 0 r
    rw [emit, Inst.emit, isInt32_eq hagrees, emitRex64RmField_eq, hm, emitInt32_eq, toUInt8_lowBits,
      emitInt64_eq]
    rfl
  | setccR c r =>
    have hm : emitModRmOpcode 0 r = emitModrmOpcode 0 r := emitModRmOpcode_eq 0 r
    have hlow : decide (lowBits r > 3) = decide (r.lowBits > 3) := by
      exact decide_eq_decide.mpr (toInt32_lt_iff 3 r.lowBits)
    rw [emit, Inst.emit, needsRexBit_eq, hlow, emitRex_eq, toUInt8_condition, hm]
    rfl
  | testlRi r imm =>
    have hm : emitModRmOpcode 0 r = emitModrmOpcode 0 r := emitModRmOpcode_eq 0 r
    rw [emit, hm, needsRexBit_eq, emitRex_eq, emitInt32_eq]
    refine check_append_congr isInt32_of (fun _ => ?_) h
    have hlt : regValue r < 4 ↔ r.value < 4 := toInt32_lt_iff r.value 4
    simp only [hlt]
    rfl

/-- **Instructions with a memory operand**, for the same address. -/
theorem emitMem_eq {inst : MemInst} {address : Address} (h : inst.emit address ≠ fail)
    (hboots : emitMem address inst ≠ fail) : emitMem address inst = inst.emit address := by
  have h0 : emitAddress 0 address = Asm.emitAddress 0 address := emitAddress_eq 0 address
  have h7 : emitAddress 7 address = Asm.emitAddress 7 address := emitAddress_eq 7 address
  cases inst with
  | xchgqAr | xchglAr | cmpxchgqAr | cmpxchglAr | lockCmpxchgqAr | lockCmpxchglAr | andpsRa
  | xaddqAr | xaddlAr | lockXaddqAr | lockXaddlAr => exact absurd rfl hboots
  | cmpbAr r | movbAr r | cmplAr r | movlAr r | movlRa r | testlAr r | cmpqAr r | lea r | movqAr r
  | movqRa r | testqAr r | movsxblRa r | movzxbRa r | movsxbqRa r =>
    simp only [emitMem, MemInst.emit, mem_eq _ r ⟨0⟩]
  | movsdRa r | movsdAr r | movssAr r | movssRa r | xorpdRa r | xorpsRa r =>
    simp only [emitMem, MemInst.emit, emitByte_eq, mem_eq _ RAX r]
  | cmpbAi imm =>
    rw [emitMem, emitRex32AddressOptional_eq, h7, MemInst.emit, digitMem32]
    simp only [append_assoc]
    rfl
  | movbAi imm =>
    rw [emitMem, emitRex32AddressOptional_eq, h0, MemInst.emit, digitMem32]
    simp only [append_assoc]
    rfl
  | movlAi imm =>
    rw [emitMem, emitRex32AddressOptional_eq, h0, emitInt32_eq_uint32]
    rw [MemInst.emit, digitMem32] at h ⊢
    simp only [append_assoc] at h ⊢
    exact check_append_congr isInt32_or_of (fun _ => rfl) h
  | movqAi imm | testqAi imm =>
    rw [emitMem, emitRex64Address_eq, h0, emitInt32_eq]
    rw [MemInst.emit, digitMem64] at h ⊢
    simp only [append_assoc] at h ⊢
    exact check_append_congr isInt32_of (fun _ => rfl) h
  | testlAi imm =>
    rw [emitMem, emitRex32AddressOptional_eq, h0, emitInt32_eq]
    rw [MemInst.emit, digitMem32] at h ⊢
    simp only [append_assoc] at h ⊢
    exact check_append_congr isInt32_of (fun _ => rfl) h
  | cmplAi imm =>
    rw [emitMem, emitRex32AddressOptional_eq, h7, emitInt32_eq_uint32, immToUInt8_eq,
      append_assoc (check _)]
    refine check_append_congr isInt32_or_of (fun _ => ?_) h
    by_cases h8 : imm.isInt8 = true
    · rw [if_pos h8, digitMem32, if_pos (show isInt8 imm = true from h8)]
      simp only [append_assoc]
      rfl
    · rw [if_neg h8, digitMem32, if_neg (show ¬ isInt8 imm = true from h8)]
      simp only [append_assoc]
      rfl
  | cmpqAi imm =>
    rw [emitMem, emitRex64Address_eq, h7, emitInt32_eq, immToUInt8_eq, append_assoc (check _)]
    refine check_append_congr isInt32_of (fun _ => ?_) h
    by_cases h8 : imm.isInt8 = true
    · rw [if_pos h8, digitMem64, if_pos (show isInt8 imm = true from h8)]
      simp only [append_assoc]
      rfl
    · rw [if_neg h8, digitMem64, if_neg (show ¬ isInt8 imm = true from h8)]
      simp only [append_assoc]
      rfl

/-! ### Addresses -/

theorem toUInt8_rex (rex : UInt8) :
    toUInt8 (toInt32 rex ||| 0x41) = rex ||| 0x41 ∧
      toUInt8 (toInt32 rex ||| 0x42) = rex ||| 0x42 := by
  rw [toUInt8_or, toUInt8_or, toUInt8_toInt32]
  exact ⟨rfl, rfl⟩

variable (address : Address) (base : Register) (disp : Int32)

theorem setModrm_eq (mode : UInt8) (r : Register) :
    Address.setModrm address (toInt32 mode) r = address.setModrm mode r := by
  have h0 : 0 ≤ toInt32 mode := by
    rw [Int32.le_iff_toInt_le, toInt_toInt32]
    exact Int.natCast_nonneg _
  have h4 : toInt32 mode < 4 ↔ mode < 4 := toInt32_lt_iff mode 4
  have hbyte : toUInt8 (toInt32 mode <<< 6 ||| lowBits r) = mode <<< 6 ||| r.lowBits := by
    rw [toUInt8_or, (toUInt8_shiftLeft mode).2, lowBits_eq, toUInt8_toInt32]
  rw [Address.setModrm, setModrm, hbyte, (toUInt8_rex _).1, needsRexBit_eq]
  refine if_congr ?_ rfl rfl
  rw [h4]
  exact ⟨fun h => ⟨h.2.2, h.1⟩, fun h => ⟨h.2, h0, h.1⟩⟩

theorem mode_eq : Address.mode base disp = toInt32 (mode base disp) := by
  rw [Address.mode, mode]
  split
  · rfl
  · split <;> rfl

theorem setDisp8_eq : Address.setDisp8 address disp = address.setDisp8 disp.toInt8 := by
  rw [Address.setDisp8, setDisp8, Asm.toUInt8_toInt8]
  rfl

theorem setDisp32_eq : Address.setDisp32 address disp = address.setDisp32 disp := by
  obtain ⟨h8, h16, h24⟩ := toUInt8_shiftRight disp
  rw [Address.setDisp32, setDisp32, h8, h16, h24]
  rfl

theorem setDisp_eq :
    Address.setDisp address (Address.mode base disp) disp =
      address.setDisp (mode base disp) disp := by
  rw [Address.setDisp, setDisp, Address.mode, mode, setDisp8_eq, setDisp32_eq]
  by_cases h0 : disp = 0 ∧ base ≠ RBP
  · rw [if_pos h0, if_pos h0]
    rfl
  · rw [if_neg h0, if_neg h0]
    by_cases h1 : -128 ≤ disp ∧ disp < 128
    · rw [if_pos h1, if_pos h1]
      rfl
    · rw [if_neg h1, if_neg h1]
      rfl

theorem setSib_eq (scale : ScaleFactor) (idx base : Register) :
    Address.setSib address scale idx base =
      if address.bytes.length = 1 then
        some {
          rex := address.rex ||| (if base.needsRex then 0x41 else 0) |||
            if base.needsRex then 0x42 else 0
          bytes := address.bytes ++ [sibByte scale idx base] }
      else none := by
  have hscale : scaleValue scale = toInt32 scale.value := by cases scale <;> rfl
  have hbyte : toUInt8 (scaleValue scale <<< 6 ||| lowBits idx <<< 3 ||| lowBits base) =
      sibByte scale idx base := by
    rw [toUInt8_or, toUInt8_or, hscale, lowBits_eq, lowBits_eq, (toUInt8_shiftLeft _).1,
      (toUInt8_shiftLeft _).2, toUInt8_toInt32]
    rfl
  rw [Address.setSib, hbyte, needsRexBit_eq]
  refine if_congr Iff.rfl ?_ rfl
  cases base.needsRex <;> simp [(toUInt8_rex _).1, (toUInt8_rex _).2]

/-- The layout of an address here. -/
def layout (form : AddressForm) : Layout :=
  match form with
  | .index .. | .array .. => { form.layout with x := form.layout.b }
  | .offset .. | .rip .. => form.layout

/-- **Addresses** are encoded alike, up to the REX bit of the index. -/
theorem build_eq {form : AddressForm} (h : form.Valid) :
    Address.build form = some (layout form).address := by
  have h0 (r : Register) : Address.setModrm Address.new 0 r = new.setModrm 0 r := setModrm_eq _ 0 r
  cases form with
  | offset base disp =>
    rw [layout, ← AddressForm.build_eq h, Address.build, AddressForm.build, Address.offset,
      offset, mode_eq, setModrm_eq]
    by_cases hb : base = RSP
    · subst hb
      refine congrArg _ (funext fun address => ?_)
      rw [setSib_eq, setSib, ← mode_eq]
      simp only [setDisp_eq]
      simp [sibByte]
    · simp only [if_neg hb, ← mode_eq, setDisp_eq]
      rfl
  | index idx factor disp =>
    have hi : idx ≠ RSP := h
    rw [Address.build, Address.index, h0]
    simp [setModrm, new, setSib_eq, setDisp32_eq, setDisp32, hi,
      layout, AddressForm.layout, Layout.address]
  | array base idx factor disp =>
    have hm := mode_lt base disp
    have hi : idx ≠ RSP := h
    rw [Address.build, Address.array, mode_eq, setModrm_eq, ← mode_eq]
    simp [setModrm, Address.new, setSib_eq, hm, hi, setDisp_eq, Asm.setDisp_eq]
    rfl
  | rip disp =>
    rw [layout, ← AddressForm.build_eq h, Address.build, AddressForm.build, Address.rip, rip, h0]
    simp only [setDisp32_eq]

theorem build_eq_none {form : AddressForm} (h : ¬ form.Valid) :
    Address.build form = none ∧ form.build = none := by
  cases form with
  | index idx factor disp =>
    have hi : idx = RSP := Classical.not_not.mp h
    simp [Address.build, Address.index, AddressForm.build, index, hi]
  | array base idx factor disp =>
    have hi : idx = RSP := Classical.not_not.mp h
    simp [Address.build, Address.array, AddressForm.build, array, hi]
  | offset base disp | rip disp => exact absurd trivial h

theorem layout_eq_iff (form : AddressForm) : layout form = form.layout ↔ form.Agrees := by
  cases form with
  | offset base disp | rip disp => exact iff_of_true rfl trivial
  | index idx factor disp =>
    constructor
    · intro h
      exact (congrArg Layout.x h).symm
    · intro h
      rw [layout, AddressForm.layout, h]
  | array base idx factor disp =>
    constructor
    · intro h
      exact congrArg Layout.x h
    · intro h
      rw [layout, AddressForm.layout, h]

end Boots

end Dora.Asm
