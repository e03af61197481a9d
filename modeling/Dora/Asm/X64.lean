import Mathlib.Algebra.Group.Int.Defs
import Mathlib.Algebra.Group.Nat.Defs

/-!
# The x64 assembler

A function of `AssemblerX64` checks its assertions and appends bytes to the code buffer.

## Main definitions

* `Emission`: the bytes that are appended, or none where an assertion fails
* `Address`, `AddressForm`: memory operands, and the functions that build them
* `Inst`, `Inst.emit`: instructions on registers and immediates
* `MemInst`, `MemInst.emit`: instructions with a memory operand
-/

namespace Dora.Asm

/-! ### Emissions -/

/-- **Emission**: the bytes that a call appends to the buffer, if all its assertions hold. -/
def Emission : Type := Option (List UInt8)
deriving DecidableEq

namespace Emission

def bytes (bytes : List UInt8) : Emission := some bytes

def fail : Emission := none

def append : Emission → Emission → Emission
  | some xs, some ys => some (xs ++ ys)
  | _, _ => none

instance : Append Emission := ⟨append⟩

@[simp]
theorem bytes_append (xs ys : List UInt8) : bytes xs ++ bytes ys = bytes (xs ++ ys) := rfl

@[simp]
theorem fail_append (e : Emission) : fail ++ e = fail := rfl

@[simp]
theorem append_fail (e : Emission) : e ++ fail = fail := by
  cases e <;> rfl

theorem append_assoc (a b c : Emission) : a ++ b ++ c = a ++ (b ++ c) := by
  cases a with
  | none => rfl
  | some xs =>
    cases b with
    | none => rfl
    | some ys =>
      cases c with
      | none => rfl
      | some zs => exact congrArg some (List.append_assoc xs ys zs)

end Emission

open Emission

def emitU8 (value : UInt8) : Emission := bytes [value]

/-- The bytes of a number in little-endian order. -/
def le32 (value : UInt32) : List UInt8 :=
  [value.toUInt8, (value >>> 8).toUInt8, (value >>> 16).toUInt8, (value >>> 24).toUInt8]

def le64 (value : UInt64) : List UInt8 := le32 value.toUInt32 ++ le32 (value >>> 32).toUInt32

theorem toUInt8_toInt8 (d : Int32) : d.toInt8.toUInt8 = d.toUInt32.toUInt8 := by
  apply UInt8.toBitVec_inj.mp
  simp [BitVec.signExtend_eq_setWidth_of_le]

def emitU32 (value : UInt32) : Emission := bytes (le32 value)

def emitU64 (value : UInt64) : Emission := bytes (le64 value)

/-- An assertion. -/
def check (p : Prop) [Decidable p] : Emission := if p then bytes [] else fail

@[simp]
theorem check_append {p : Prop} [Decidable p] (h : p) (e : Emission) : check p ++ e = e := by
  cases e <;> simp only [check, if_pos h] <;> rfl

/-! ### Operands -/

/-- A general purpose register. -/
structure Register where
  value : UInt8
  value_lt : value < 16
deriving DecidableEq

namespace Register

def lowBits (r : Register) : UInt8 := r.value &&& 0b111

def needsRex (r : Register) : Bool := r.value > 7

end Register

def RAX : Register := ⟨0, by decide⟩
def RCX : Register := ⟨1, by decide⟩
def RSP : Register := ⟨4, by decide⟩
def RBP : Register := ⟨5, by decide⟩
def R8 : Register := ⟨8, by decide⟩
def R12 : Register := ⟨12, by decide⟩
def R13 : Register := ⟨13, by decide⟩

/-- A vector register. Its number is not checked. -/
structure XmmRegister where
  value : UInt8
deriving DecidableEq

namespace XmmRegister

def lowBits (r : XmmRegister) : UInt8 := r.value &&& 0b111

def needsRex (r : XmmRegister) : Bool := r.value > 7

end XmmRegister

inductive Condition
  | overflow
  | noOverflow
  | below
  | neitherAboveNorEqual
  | notBelow
  | aboveOrEqual
  | equal
  | zero
  | notEqual
  | notZero
  | belowOrEqual
  | notAbove
  | neitherBelowNorEqual
  | above
  | sign
  | noSign
  | parity
  | parityEven
  | noParity
  | parityOdd
  | less
  | neitherGreaterNorEqual
  | notLess
  | greaterOrEqual
  | lessOrEqual
  | notGreater
  | neitherLessNorEqual
  | greater
deriving DecidableEq

def Condition.int : Condition → UInt8
  | .overflow => 0b0000
  | .noOverflow => 0b0001
  | .below | .neitherAboveNorEqual => 0b0010
  | .notBelow | .aboveOrEqual => 0b0011
  | .equal | .zero => 0b0100
  | .notEqual | .notZero => 0b0101
  | .belowOrEqual | .notAbove => 0b0110
  | .neitherBelowNorEqual | .above => 0b0111
  | .sign => 0b1000
  | .noSign => 0b1001
  | .parity | .parityEven => 0b1010
  | .noParity | .parityOdd => 0b1011
  | .less | .neitherGreaterNorEqual => 0b1100
  | .notLess | .greaterOrEqual => 0b1101
  | .lessOrEqual | .notGreater => 0b1110
  | .neitherLessNorEqual | .greater => 0b1111

structure Immediate where
  value : Int64
deriving DecidableEq

namespace Immediate

variable (imm : Immediate)

def isInt8 : Bool := -2 ^ 7 ≤ imm.value.toInt ∧ imm.value.toInt < 2 ^ 7

def isInt32 : Bool := -2 ^ 31 ≤ imm.value.toInt ∧ imm.value.toInt < 2 ^ 31

def isUint8 : Bool := 0 ≤ imm.value.toInt ∧ imm.value.toInt < 256

def isUint32 : Bool := 0 ≤ imm.value.toInt ∧ imm.value.toInt < 2 ^ 32

def uint8 : UInt8 := imm.value.toUInt64.toUInt8

def int8 : Int8 := imm.value.toInt8

def int32 : Int32 := imm.value.toInt32

def uint32 : UInt32 := imm.value.toUInt64.toUInt32

def int64 : Int64 := imm.value

end Immediate

inductive ScaleFactor
  | one
  | two
  | four
  | eight
deriving DecidableEq

def ScaleFactor.value : ScaleFactor → UInt8
  | one => 0
  | two => 1
  | four => 2
  | eight => 3

/-! ### Memory operands -/

/-- An encoded memory operand: the bits for the REX prefix, and the ModRM byte with an empty
register field, the SIB byte and the displacement. `bytes` has the `length` bytes that are
written. -/
structure Address where
  rex : UInt8
  bytes : List UInt8
deriving DecidableEq

namespace Address

def new : Address := ⟨0, []⟩

variable (address : Address)

def setModrm (mode : UInt8) (reg : Register) : Option Address :=
  if mode < 4 ∧ address.bytes.length = 0 then
    some {
      rex := if reg.needsRex then address.rex ||| 0x41 else address.rex
      bytes := address.bytes ++ [mode <<< 6 ||| reg.lowBits] }
  else none

def setSib (scale : ScaleFactor) (index base : Register) : Option Address :=
  if address.bytes.length = 1 then
    let rex := if base.needsRex then address.rex ||| 0x41 else address.rex
    some {
      rex := if index.needsRex then rex ||| 0x42 else rex
      bytes := address.bytes ++ [scale.value <<< 6 ||| index.lowBits <<< 3 ||| base.lowBits] }
  else none

def setDisp8 (imm : Int8) : Option Address :=
  if address.bytes.length = 1 ∨ address.bytes.length = 2 then
    some { address with bytes := address.bytes ++ [imm.toUInt8] }
  else none

def setDisp32 (imm : Int32) : Option Address :=
  if address.bytes.length = 1 ∨ address.bytes.length = 2 then
    some { address with bytes := address.bytes ++ le32 imm.toUInt32 }
  else none

/-- The mode: no displacement, one of 8 bits, or one of 32 bits. -/
def mode (base : Register) (disp : Int32) : UInt8 :=
  if disp = 0 ∧ base ≠ RBP then 0b00
  else if -128 ≤ disp ∧ disp < 128 then 0b01
  else 0b10

/-- The displacement for a mode. -/
def setDisp (mode : UInt8) (disp : Int32) : Option Address :=
  if mode = 0b00 then some address
  else if mode = 0b01 then address.setDisp8 disp.toInt8
  else address.setDisp32 disp

def offset (base : Register) (offset : Int32) : Option Address := do
  let address ← new.setModrm (mode base offset) base
  let address ← if base = RSP then address.setSib .one RSP base else some address
  address.setDisp (mode base offset) offset

def index (index : Register) (factor : ScaleFactor) (disp : Int32) : Option Address := do
  let address ← new.setModrm 0b00 RSP
  if index ≠ RSP then
    let address ← address.setSib factor index RBP
    address.setDisp32 disp
  else none

def array (base index : Register) (factor : ScaleFactor) (disp : Int32) : Option Address := do
  let address ← new.setModrm (mode base disp) RSP
  if index ≠ RSP then
    let address ← address.setSib factor index base
    address.setDisp (mode base disp) disp
  else none

def rip (disp : Int32) : Option Address := do
  let address ← new.setModrm 0b00 RBP
  address.setDisp32 disp

end Address

/-- How a memory operand is built: the call of a function of `Address`. -/
inductive AddressForm
  | offset (base : Register) (offset : Int32)
  | index (index : Register) (factor : ScaleFactor) (disp : Int32)
  | array (base index : Register) (factor : ScaleFactor) (disp : Int32)
  | rip (disp : Int32)
deriving DecidableEq

def AddressForm.build : AddressForm → Option Address
  | .offset base disp => Address.offset base disp
  | .index idx factor disp => Address.index idx factor disp
  | .array base idx factor disp => Address.array base idx factor disp
  | .rip disp => Address.rip disp

/-! ### Prefixes and ModRM bytes -/

section Encoders

variable (w r x b : Bool) (opcode digit : UInt8) (reg : Register) (xreg : XmmRegister)
  (rm : Register) (xrm : XmmRegister) (imm : Immediate) (address : Address)

def emitLockPrefix : Emission := emitU8 0xF0

def emitRex (w r x b : Bool) : Emission :=
  emitU8 ((0x40 : UInt8) ||| w.toUInt8 <<< 3 ||| r.toUInt8 <<< 2 ||| x.toUInt8 <<< 1 ||| b.toUInt8)

def emitRexOptional : Emission := if w || r || x || b then emitRex w r x b else bytes []

def emitRexSseModrmOptional : Emission :=
  if xreg.needsRex || xrm.needsRex then emitRex false xreg.needsRex false xrm.needsRex else bytes []

/-- The REX bit of a register in the register field of ModRM. -/
def rexR (needsRex : Bool) : UInt8 := if needsRex then 0x04 else 0

def emitRexSseAddressOptional : Emission :=
  if address.rex ≠ 0 ∨ xreg.needsRex then emitU8 (0x40 ||| address.rex ||| rexR xreg.needsRex)
  else bytes []

def emitRex32RmOptional : Emission :=
  if reg.needsRex then emitRex false false false true else bytes []

def emitRex32ByteOptional : Emission :=
  if reg.needsRex || rm.needsRex || decide (rm.value > 3) then
    emitRex false reg.needsRex false rm.needsRex
  else bytes []

def emitRex32Optional : Emission :=
  if reg.needsRex || rm.needsRex then emitRex false reg.needsRex false rm.needsRex else bytes []

def emitRex64 : Emission := emitRex true false false false

def emitRex64Rm : Emission := emitRex true false false rm.needsRex

def emitRex64ModrmAddress : Emission := emitU8 (0x48 ||| address.rex ||| rexR reg.needsRex)

def emitRex64Address : Emission := emitU8 (0x48 ||| address.rex)

def emitRex32ModrmAddress : Emission :=
  if address.rex ≠ 0 ∨ reg.needsRex then emitU8 (0x40 ||| address.rex ||| rexR reg.needsRex)
  else bytes []

def emitRex32ByteAddress : Emission :=
  if address.rex ≠ 0 ∨ reg.value > 3 then emitU8 (0x40 ||| address.rex ||| rexR reg.needsRex)
  else bytes []

def emitRex32AddressOptional : Emission :=
  if address.rex ≠ 0 then emitU8 (0x40 ||| address.rex) else bytes []

def emitRex64Modrm : Emission := emitRex true reg.needsRex false rm.needsRex

def emitModrm (mode reg rm : UInt8) : Emission :=
  check (mode < 4) ++ check (reg < 8) ++ check (rm < 8) ++ emitU8 (mode <<< 6 ||| reg <<< 3 ||| rm)

def emitModrmRegisters : Emission := emitModrm 0b11 reg.lowBits rm.lowBits

def emitModrmSseRegisters : Emission := emitModrm 0b11 xreg.lowBits xrm.lowBits

def emitModrmOpcode : Emission := emitModrm 0b11 opcode reg.lowBits

/-- The ModRM byte with the given register field, and the other bytes of the operand. -/
def emitAddress (regOrOpcode : UInt8) (address : Address) : Emission :=
  check (regOrOpcode < 8) ++
    match address.bytes with
    | [] => fail
    | modrm :: rest => bytes ((regOrOpcode <<< 3 ||| modrm) :: rest)

/-! ### Families of instructions -/

def emitAlu64Imm (reg : Register) (imm : Immediate) (modrmReg raxOpcode : UInt8) : Emission :=
  check imm.isInt32 ++ emitRex64Rm reg ++
    if imm.isInt8 then
      emitU8 0x83 ++ emitModrmOpcode modrmReg reg ++ emitU8 imm.int8.toUInt8
    else if reg = RAX then emitU8 raxOpcode ++ emitU32 imm.int32.toUInt32
    else emitU8 0x81 ++ emitModrmOpcode modrmReg reg ++ emitU32 imm.int32.toUInt32

def emitAlu32Imm (reg : Register) (imm : Immediate) (modrmReg raxOpcode : UInt8) : Emission :=
  check imm.isInt32 ++ emitRex32RmOptional reg ++
    if imm.isInt8 then
      emitU8 0x83 ++ emitModrmOpcode modrmReg reg ++ emitU8 imm.int8.toUInt8
    else if reg = RAX then emitU8 raxOpcode ++ emitU32 imm.int32.toUInt32
    else emitU8 0x81 ++ emitModrmOpcode modrmReg reg ++ emitU32 imm.int32.toUInt32

/-- An opcode with two registers, of 32 or 64 bits. -/
def regs32 : Emission := emitRex32Optional reg rm ++ emitU8 opcode ++ emitModrmRegisters reg rm

def regs64 : Emission := emitRex64Modrm reg rm ++ emitU8 opcode ++ emitModrmRegisters reg rm

/-- The same with an opcode of two bytes. -/
def extRegs32 : Emission :=
  emitRex32Optional reg rm ++ emitU8 0x0F ++ emitU8 opcode ++ emitModrmRegisters reg rm

def extRegs64 : Emission :=
  emitRex64Modrm reg rm ++ emitU8 0x0F ++ emitU8 opcode ++ emitModrmRegisters reg rm

/-- The source register has 8 bits. -/
def extRegsByte : Emission :=
  emitRex32ByteOptional reg rm ++ emitU8 0x0F ++ emitU8 opcode ++ emitModrmRegisters reg rm

/-- One register, and a digit that extends the opcode. -/
def unary32 : Emission := emitRex32RmOptional reg ++ emitU8 opcode ++ emitModrmOpcode digit reg

def unary64 : Emission := emitRex64Rm reg ++ emitU8 opcode ++ emitModrmOpcode digit reg

/-- A shift by an immediate. -/
def shiftImm32 : Emission := check imm.isInt8 ++ unary32 0xC1 digit reg ++ emitU8 imm.int8.toUInt8

def shiftImm64 : Emission := check imm.isInt8 ++ unary64 0xC1 digit reg ++ emitU8 imm.int8.toUInt8

/-- Two vector registers. -/
def sseRegs : Emission :=
  emitRexSseModrmOptional xreg xrm ++ emitU8 0x0F ++ emitU8 opcode ++ emitModrmSseRegisters xreg xrm

/-- A vector register in the register field and a general purpose register. -/
def sseReg : Emission :=
  emitRexOptional w xreg.needsRex false rm.needsRex ++ emitU8 0x0F ++ emitU8 opcode ++
    emitModrm 0b11 xreg.lowBits rm.lowBits

/-- A general purpose register in the register field and a vector register. -/
def regSse : Emission :=
  emitRexOptional w reg.needsRex false xrm.needsRex ++ emitU8 0x0F ++ emitU8 opcode ++
    emitModrm 0b11 reg.lowBits xrm.lowBits

/-- A register and a memory operand, of 8, 32 or 64 bits. -/
def mem8 : Emission :=
  emitRex32ByteAddress reg address ++ emitU8 opcode ++ emitAddress reg.lowBits address

def mem32 : Emission :=
  emitRex32ModrmAddress reg address ++ emitU8 opcode ++ emitAddress reg.lowBits address

def mem64 : Emission :=
  emitRex64ModrmAddress reg address ++ emitU8 opcode ++ emitAddress reg.lowBits address

/-- The same with an opcode of two bytes. -/
def extMem32 : Emission :=
  emitRex32ModrmAddress reg address ++ emitU8 0x0F ++ emitU8 opcode ++
    emitAddress reg.lowBits address

def extMem64 : Emission :=
  emitRex64ModrmAddress reg address ++ emitU8 0x0F ++ emitU8 opcode ++
    emitAddress reg.lowBits address

/-- A vector register and a memory operand. -/
def sseMem : Emission :=
  emitRexSseAddressOptional xreg address ++ emitU8 0x0F ++ emitU8 opcode ++
    emitAddress xreg.lowBits address

/-- A memory operand, and a digit that extends the opcode. -/
def digitMem32 : Emission :=
  emitRex32AddressOptional address ++ emitU8 opcode ++ emitAddress digit address

def digitMem64 : Emission := emitRex64Address address ++ emitU8 opcode ++ emitAddress digit address

end Encoders

/-! ### Instructions -/

/-- The instructions without a memory operand. -/
inductive Inst
  | pushqR (reg : Register)
  | popqR (reg : Register)
  | int3
  | retq
  | nop
  | setccR (condition : Condition) (dest : Register)
  | cmovl (condition : Condition) (dest src : Register)
  | cmovq (condition : Condition) (dest src : Register)
  | movqRr (dest src : Register)
  | movqRi (dest : Register) (imm : Immediate)
  | movlRr (dest src : Register)
  | movlRi (dest : Register) (imm : Immediate)
  | movzxbRr (dest src : Register)
  | movsxblRr (dest src : Register)
  | movsxbqRr (dest src : Register)
  | movsxlqRr (dest src : Register)
  | movssRr (dest src : XmmRegister)
  | movsdRr (dest src : XmmRegister)
  | addqRr (dest src : Register)
  | addlRi (dest : Register) (imm : Immediate)
  | addqRi (dest : Register) (imm : Immediate)
  | addlRr (dest src : Register)
  | addssRr (dest src : XmmRegister)
  | addsdRr (dest src : XmmRegister)
  | subqRr (dest src : Register)
  | subqRi (dest : Register) (imm : Immediate)
  | subqRi32 (dest : Register) (imm : Immediate)
  | sublRr (dest src : Register)
  | subssRr (dest src : XmmRegister)
  | subsdRr (dest src : XmmRegister)
  | andlRr (dest src : Register)
  | andqRr (dest src : Register)
  | andqRi (dest : Register) (imm : Immediate)
  | cmplRr (dest src : Register)
  | cmpqRr (lhs rhs : Register)
  | cmpqRi (reg : Register) (imm : Immediate)
  | cmplRi (reg : Register) (imm : Immediate)
  | ucomissRr (dest src : XmmRegister)
  | ucomisdRr (dest src : XmmRegister)
  | roundssRi (reg : XmmRegister) (imm : Immediate)
  | roundsdRi (reg : XmmRegister) (imm : Immediate)
  | sqrtssRr (dest src : XmmRegister)
  | sqrtsdRr (dest src : XmmRegister)
  | pxorRr (dest src : XmmRegister)
  | orlRr (dest src : Register)
  | orqRr (dest src : Register)
  | xorlRr (dest src : Register)
  | xorlRi (lhs : Register) (rhs : Immediate)
  | xorqRr (dest src : Register)
  | xorpsRr (dest src : XmmRegister)
  | testlRr (lhs rhs : Register)
  | testlRi (lhs : Register) (rhs : Immediate)
  | testqRr (lhs rhs : Register)
  | imullRr (dest src : Register)
  | imulqRr (dest src : Register)
  | mulssRr (dest src : XmmRegister)
  | mulsdRr (dest src : XmmRegister)
  | divssRr (dest src : XmmRegister)
  | divsdRr (dest src : XmmRegister)
  | idivlR (reg : Register)
  | idivqR (src : Register)
  | callR (reg : Register)
  | cdq
  | cqo
  | negl (reg : Register)
  | negq (reg : Register)
  | notl (reg : Register)
  | notq (reg : Register)
  | jmpR (reg : Register)
  | tzcntlRr (dest src : Register)
  | tzcntqRr (dest src : Register)
  | lzcntlRr (dest src : Register)
  | lzcntqRr (dest src : Register)
  | popcntlRr (dest src : Register)
  | popcntqRr (dest src : Register)
  | cvtsd2ssRr (dest src : XmmRegister)
  | cvtss2sdRr (dest src : XmmRegister)
  | cvtsi2ssdRr (dest : XmmRegister) (src : Register)
  | cvtsi2ssqRr (dest : XmmRegister) (src : Register)
  | cvtsi2sddRr (dest : XmmRegister) (src : Register)
  | cvtsi2sdqRr (dest : XmmRegister) (src : Register)
  | cvttss2sidRr (dest : Register) (src : XmmRegister)
  | cvttss2siqRr (dest : Register) (src : XmmRegister)
  | cvttsd2sidRr (dest : Register) (src : XmmRegister)
  | cvttsd2siqRr (dest : Register) (src : XmmRegister)
  | movdRx (dest : Register) (src : XmmRegister)
  | movdXr (dest : XmmRegister) (src : Register)
  | movqRx (dest : Register) (src : XmmRegister)
  | movqXr (dest : XmmRegister) (src : Register)
  | shrlRi (lhs : Register) (rhs : Immediate)
  | shrlR (lhs : Register)
  | shllR (lhs : Register)
  | sarlR (lhs : Register)
  | shrqRi (lhs : Register) (rhs : Immediate)
  | shrqR (lhs : Register)
  | sarqR (lhs : Register)
  | sarlRi (lhs : Register) (rhs : Immediate)
  | sarqRi (lhs : Register) (rhs : Immediate)
  | shllRi (lhs : Register) (rhs : Immediate)
  | shlqR (lhs : Register)
  | shlqRi (lhs : Register) (rhs : Immediate)
  | rollR (opnd : Register)
  | rolqR (opnd : Register)
  | rorlR (opnd : Register)
  | rorqR (opnd : Register)
deriving DecidableEq

/-- The bytes of an instruction. -/
def Inst.emit : Inst → Emission
  | pushqR reg => emitRex32RmOptional reg ++ emitU8 (0x50 + reg.lowBits)
  | popqR reg => emitRex32RmOptional reg ++ emitU8 (0x58 + reg.lowBits)
  | int3 => emitU8 0xCC
  | retq => emitU8 0xC3
  | nop => emitU8 0x90
  | setccR condition dest =>
    (if dest.needsRex || decide (dest.lowBits > 3) then emitRex false false false dest.needsRex
      else bytes []) ++
    emitU8 0x0F ++ emitU8 (0x90 + condition.int) ++ emitModrmOpcode 0 dest
  | cmovl condition dest src => extRegs32 (0x40 + condition.int) dest src
  | cmovq condition dest src => extRegs64 (0x40 + condition.int) dest src
  | movqRr dest src => regs64 0x89 src dest
  | movqRi dest imm =>
    if imm.isInt32 then
      emitRex64Rm dest ++ emitU8 0xC7 ++ emitModrmOpcode 0 dest ++ emitU32 imm.int32.toUInt32
    else emitRex64Rm dest ++ emitU8 (0xB8 + dest.lowBits) ++ emitU64 imm.int64.toUInt64
  | movlRr dest src => regs32 0x89 src dest
  | movlRi dest imm =>
    check imm.isInt32 ++ emitRex32RmOptional dest ++ emitU8 (0xB8 + dest.lowBits) ++
      emitU32 imm.int32.toUInt32
  | movzxbRr dest src => extRegsByte 0xB6 dest src
  | movsxblRr dest src => extRegsByte 0xBE dest src
  | movsxbqRr dest src => extRegs64 0xBE dest src
  | movsxlqRr dest src => regs64 0x63 dest src
  | movssRr dest src => emitU8 0xF3 ++ sseRegs 0x10 dest src
  | movsdRr dest src => emitU8 0xF2 ++ sseRegs 0x10 dest src
  | addqRr dest src => regs64 0x01 src dest
  | addlRi dest imm => emitAlu32Imm dest imm 0b000 0x05
  | addqRi dest imm => emitAlu64Imm dest imm 0b000 0x05
  | addlRr dest src => regs32 0x01 src dest
  | addssRr dest src => emitU8 0xF3 ++ sseRegs 0x58 dest src
  | addsdRr dest src => emitU8 0xF2 ++ sseRegs 0x58 dest src
  | subqRr dest src => regs64 0x29 src dest
  | subqRi dest imm | subqRi32 dest imm => emitAlu64Imm dest imm 0b101 0x2D
  | sublRr dest src => regs32 0x29 src dest
  | subssRr dest src => emitU8 0xF3 ++ sseRegs 0x5C dest src
  | subsdRr dest src => emitU8 0xF2 ++ sseRegs 0x5C dest src
  | andlRr dest src => regs32 0x21 src dest
  | andqRr dest src => regs64 0x21 src dest
  | andqRi dest imm => emitAlu64Imm dest imm 0b100 0x25
  | cmplRr dest src => regs32 0x39 src dest
  | cmpqRr lhs rhs => regs64 0x39 rhs lhs
  | cmpqRi reg imm => emitAlu64Imm reg imm 0b111 0x3D
  | cmplRi reg imm => emitAlu32Imm reg imm 0b111 0x3D
  | ucomissRr dest src => sseRegs 0x2E dest src
  | ucomisdRr dest src => emitU8 0x66 ++ sseRegs 0x2E dest src
  | roundssRi reg imm =>
    emitU8 0x66 ++ emitRexSseModrmOptional reg reg ++ emitU8 0x0F ++ emitU8 0x3A ++ emitU8 0x0A ++
      emitModrmSseRegisters reg reg ++ emitU8 imm.uint8
  | roundsdRi reg imm =>
    emitU8 0x66 ++ emitRexSseModrmOptional reg reg ++ emitU8 0x0F ++ emitU8 0x3A ++ emitU8 0x0B ++
      emitModrmSseRegisters reg reg ++ emitU8 imm.uint8
  | sqrtssRr dest src => emitU8 0xF3 ++ sseRegs 0x51 dest src
  | sqrtsdRr dest src => emitU8 0xF2 ++ sseRegs 0x51 dest src
  | pxorRr dest src => emitU8 0x66 ++ sseRegs 0xEF dest src
  | orlRr dest src => regs32 0x09 src dest
  | orqRr dest src => regs64 0x09 src dest
  | xorlRr dest src => regs32 0x31 src dest
  | xorlRi lhs rhs => emitAlu32Imm lhs rhs 0b110 0x35
  | xorqRr dest src => regs64 0x31 src dest
  | xorpsRr dest src => sseRegs 0x57 dest src
  | testlRr lhs rhs => regs32 0x85 rhs lhs
  | testlRi lhs rhs =>
    check rhs.isInt32 ++
      if rhs.isUint8 then
        (if lhs = RAX then emitU8 0xA8
          else if lhs.value < 4 then emitU8 0xF6 ++ emitModrmOpcode 0b000 lhs
          else emitRex false false false lhs.needsRex ++ emitU8 0xF6 ++
            emitModrmOpcode 0b000 lhs) ++
        emitU8 rhs.uint8
      else if lhs = RAX then emitU8 0xA9 ++ emitU32 rhs.int32.toUInt32
      else emitU8 0xF7 ++ emitModrmOpcode 0b000 lhs ++ emitU32 rhs.int32.toUInt32
  | testqRr lhs rhs => regs64 0x85 rhs lhs
  | imullRr dest src => extRegs32 0xAF dest src
  | imulqRr dest src => extRegs64 0xAF dest src
  | mulssRr dest src => emitU8 0xF3 ++ sseRegs 0x59 dest src
  | mulsdRr dest src => emitU8 0xF2 ++ sseRegs 0x59 dest src
  | divssRr dest src => emitU8 0xF3 ++ sseRegs 0x5E dest src
  | divsdRr dest src => emitU8 0xF2 ++ sseRegs 0x5E dest src
  | idivlR reg => unary32 0xF7 0b111 reg
  | idivqR src => unary64 0xF7 0b111 src
  | callR reg => unary32 0xFF 0b010 reg
  | cdq => emitU8 0x99
  | cqo => emitRex64 ++ emitU8 0x99
  | negl reg => unary32 0xF7 0b011 reg
  | negq reg => unary64 0xF7 0b011 reg
  | notl reg => unary32 0xF7 0b010 reg
  | notq reg => unary64 0xF7 0b010 reg
  | jmpR reg => unary32 0xFF 0b100 reg
  | tzcntlRr dest src => emitU8 0xF3 ++ extRegs32 0xBC dest src
  | tzcntqRr dest src => emitU8 0xF3 ++ extRegs64 0xBC dest src
  | lzcntlRr dest src => emitU8 0xF3 ++ extRegs32 0xBD dest src
  | lzcntqRr dest src => emitU8 0xF3 ++ extRegs64 0xBD dest src
  | popcntlRr dest src => emitU8 0xF3 ++ extRegs32 0xB8 dest src
  | popcntqRr dest src => emitU8 0xF3 ++ extRegs64 0xB8 dest src
  | cvtsd2ssRr dest src => emitU8 0xF2 ++ sseRegs 0x5A dest src
  | cvtss2sdRr dest src => emitU8 0xF3 ++ sseRegs 0x5A dest src
  | cvtsi2ssdRr dest src => emitU8 0xF3 ++ sseReg false 0x2A dest src
  | cvtsi2ssqRr dest src => emitU8 0xF3 ++ sseReg true 0x2A dest src
  | cvtsi2sddRr dest src => emitU8 0xF2 ++ sseReg false 0x2A dest src
  | cvtsi2sdqRr dest src => emitU8 0xF2 ++ sseReg true 0x2A dest src
  | cvttss2sidRr dest src => emitU8 0xF3 ++ regSse false 0x2C dest src
  | cvttss2siqRr dest src => emitU8 0xF3 ++ regSse true 0x2C dest src
  | cvttsd2sidRr dest src => emitU8 0xF2 ++ regSse false 0x2C dest src
  | cvttsd2siqRr dest src => emitU8 0xF2 ++ regSse true 0x2C dest src
  | movdRx dest src => emitU8 0x66 ++ sseReg false 0x7E src dest
  | movdXr dest src => emitU8 0x66 ++ sseReg false 0x6E dest src
  | movqRx dest src => emitU8 0x66 ++ sseReg true 0x7E src dest
  | movqXr dest src => emitU8 0x66 ++ sseReg true 0x6E dest src
  | shrlRi lhs rhs => shiftImm32 0b101 lhs rhs
  | shrlR lhs => unary32 0xD3 0b101 lhs
  | shllR lhs => unary32 0xD3 0b100 lhs
  | sarlR lhs => unary32 0xD3 0b111 lhs
  | shrqRi lhs rhs => shiftImm64 0b101 lhs rhs
  | shrqR lhs => unary64 0xD3 0b101 lhs
  | sarqR lhs => unary64 0xD3 0b111 lhs
  | sarlRi lhs rhs => shiftImm32 0b111 lhs rhs
  | sarqRi lhs rhs => shiftImm64 0b111 lhs rhs
  | shllRi lhs rhs => shiftImm32 0b100 lhs rhs
  | shlqR lhs => unary64 0xD3 0b100 lhs
  | shlqRi lhs rhs => shiftImm64 0b100 lhs rhs
  | rollR opnd => unary32 0xD3 0b000 opnd
  | rolqR opnd => unary64 0xD3 0b000 opnd
  | rorlR opnd => unary32 0xD3 0b001 opnd
  | rorqR opnd => unary64 0xD3 0b001 opnd

/-- The instructions with a memory operand; these are the other operands. -/
inductive MemInst
  | lea (dest : Register)
  | movqRa (dest : Register)
  | movbAr (src : Register)
  | movbAi (src : Immediate)
  | movqAr (src : Register)
  | movqAi (imm : Immediate)
  | movlRa (dest : Register)
  | movlAr (src : Register)
  | movlAi (imm : Immediate)
  | movzxbRa (dest : Register)
  | movsxblRa (dest : Register)
  | movsxbqRa (dest : Register)
  | movssRa (dest : XmmRegister)
  | movssAr (src : XmmRegister)
  | movsdRa (dest : XmmRegister)
  | movsdAr (src : XmmRegister)
  | cmpbAr (rhs : Register)
  | cmpbAi (rhs : Immediate)
  | cmplAr (rhs : Register)
  | cmplAi (rhs : Immediate)
  | cmpqAr (rhs : Register)
  | cmpqAi (rhs : Immediate)
  | xchgqAr (src : Register)
  | xchglAr (src : Register)
  | cmpxchgqAr (src : Register)
  | cmpxchglAr (src : Register)
  | lockCmpxchgqAr (src : Register)
  | lockCmpxchglAr (src : Register)
  | andpsRa (dest : XmmRegister)
  | xorpsRa (dest : XmmRegister)
  | xorpdRa (dest : XmmRegister)
  | testlAr (rhs : Register)
  | testlAi (rhs : Immediate)
  | testqAr (rhs : Register)
  | testqAi (rhs : Immediate)
  | xaddqAr (src : Register)
  | xaddlAr (src : Register)
  | lockXaddqAr (src : Register)
  | lockXaddlAr (src : Register)
deriving DecidableEq

/-- The bytes of an instruction with the given memory operand. -/
def MemInst.emit (address : Address) : MemInst → Emission
  | lea dest => mem64 0x8D dest address
  | movqRa dest => mem64 0x8B dest address
  | movbAr src => mem8 0x88 src address
  | movbAi src =>
    check (src.isInt8 || src.isUint8) ++ digitMem32 0xC6 0b000 address ++ emitU8 src.uint8
  | movqAr src => mem64 0x89 src address
  | movqAi imm => check imm.isInt32 ++ digitMem64 0xC7 0b000 address ++ emitU32 imm.int32.toUInt32
  | movlRa dest => mem32 0x8B dest address
  | movlAr src => mem32 0x89 src address
  | movlAi imm =>
    check (imm.isInt32 || imm.isUint32) ++ digitMem32 0xC7 0b000 address ++ emitU32 imm.uint32
  | movzxbRa dest => extMem32 0xB6 dest address
  | movsxblRa dest => extMem32 0xBE dest address
  | movsxbqRa dest => extMem64 0xBE dest address
  | movssRa dest => emitU8 0xF3 ++ sseMem 0x10 dest address
  | movssAr src => emitU8 0xF3 ++ sseMem 0x11 src address
  | movsdRa dest => emitU8 0xF2 ++ sseMem 0x10 dest address
  | movsdAr src => emitU8 0xF2 ++ sseMem 0x11 src address
  | cmpbAr rhs => mem8 0x38 rhs address
  | cmpbAi rhs =>
    check (rhs.isInt8 || rhs.isUint8) ++ digitMem32 0x80 0b111 address ++ emitU8 rhs.uint8
  | cmplAr rhs => mem32 0x39 rhs address
  | cmplAi rhs =>
    check (rhs.isInt32 || rhs.isUint32) ++
      if rhs.isInt8 then digitMem32 0x83 0b111 address ++ emitU8 rhs.int8.toUInt8
      else digitMem32 0x81 0b111 address ++ emitU32 rhs.uint32
  | cmpqAr rhs => mem64 0x39 rhs address
  | cmpqAi rhs =>
    check rhs.isInt32 ++
      if rhs.isInt8 then digitMem64 0x83 0b111 address ++ emitU8 rhs.int8.toUInt8
      else digitMem64 0x81 0b111 address ++ emitU32 rhs.int32.toUInt32
  | xchgqAr src => mem64 0x87 src address
  | xchglAr src => mem32 0x87 src address
  | cmpxchgqAr src => extMem64 0xB1 src address
  | cmpxchglAr src => extMem32 0xB1 src address
  | lockCmpxchgqAr src => emitLockPrefix ++ extMem64 0xB1 src address
  | lockCmpxchglAr src => emitLockPrefix ++ extMem32 0xB1 src address
  | andpsRa dest => sseMem 0x54 dest address
  | xorpsRa dest => sseMem 0x57 dest address
  | xorpdRa dest => emitU8 0x66 ++ sseMem 0x57 dest address
  | testlAr rhs => mem32 0x85 rhs address
  | testlAi rhs => check rhs.isInt32 ++ digitMem32 0xF7 0b000 address ++ emitU32 rhs.int32.toUInt32
  | testqAr rhs => mem64 0x85 rhs address
  | testqAi rhs => check rhs.isInt32 ++ digitMem64 0xF7 0b000 address ++ emitU32 rhs.int32.toUInt32
  | xaddqAr src => extMem64 0xC1 src address
  | xaddlAr src => extMem32 0xC1 src address
  | lockXaddqAr src => emitLockPrefix ++ extMem64 0xC1 src address
  | lockXaddlAr src => emitLockPrefix ++ extMem32 0xC1 src address

/-- An instruction whose memory operand is built first. -/
def MemInst.emitWith (inst : MemInst) (form : AddressForm) : Emission :=
  match form.build with
  | none => fail
  | some address => inst.emit address

end Dora.Asm
