import Dora.Asm.X64Assembler

/-!
# The x64 assembler of the bootstrap compiler

The `AssemblerX64` that is written in Dora has most of the instructions of the other one, but
computes with numbers of 32 bits and chooses prefixes, SIB bytes and the sizes of immediates on its
own. Instructions that it does not have fail here.

## Main definitions

* `Boots.emit`, `Boots.emitMem`: instructions without and with a memory operand
* `Boots.AssemblerX64.step`: the calls
-/

namespace Dora.Asm.Boots

open Emission

/-! ### Numbers -/

/-- The lowest 8 bits of a number. -/
def toUInt8 (value : Int32) : UInt8 := value.toUInt32.toUInt8

/-- A byte as a number of 32 bits. -/
def toInt32 (value : UInt8) : Int32 := value.toUInt32.toInt32

def boolToInt32 (b : Bool) : Int32 := if b then 1 else 0

/-- The shift that fills up with zeros. -/
def shiftRightLogical (value : Int32) (n : UInt32) : Int32 := (value.toUInt32 >>> n).toInt32

/-! ### Operands -/

/-- The number of a register. -/
def regValue (r : Register) : Int32 := toInt32 r.value

def lowBits (r : Register) : Int32 := regValue r &&& 0b111

def needsRexBit (r : Register) : Bool := regValue r > 7

def xmmLowBits (r : XmmRegister) : Int32 := toInt32 r.value &&& 0b111

def xmmNeedsRexBit (r : XmmRegister) : Bool := toInt32 r.value > 7

def conditionToInt32 : Condition → Int32
  | .overflow => 0b0000
  | .noOverflow => 0b0001
  | .below | .neitherAboveNorEqual => 0b0010
  | .notBelow | .aboveOrEqual => 0b0011
  | .equal | .zero => 0b0100
  | .notEqual | .notZero => 0b0101
  | .belowOrEqual | .notAbove => 0b0110
  | .neitherBelowNorEqual | .above => 0b0111
  | .sign => 0b1000
  | .noSign => 0b1001
  | .parity | .parityEven => 0b1010
  | .noParity | .parityOdd => 0b1011
  | .less | .neitherGreaterNorEqual => 0b1100
  | .notLess | .greaterOrEqual => 0b1101
  | .lessOrEqual | .notGreater => 0b1110
  | .neitherLessNorEqual | .greater => 0b1111

section Immediate

variable (imm : Immediate)

def isInt8 : Bool := -2 ^ 7 ≤ imm.value.toInt ∧ imm.value.toInt < 2 ^ 7

def isUInt8 : Bool := 0 ≤ imm.value.toInt ∧ imm.value.toInt < 256

/-- The limit is not that of a signed number. -/
def isInt32 : Bool := -2 ^ 32 ≤ imm.value.toInt ∧ imm.value.toInt < 2 ^ 32

def isUInt32 : Bool := 0 ≤ imm.value.toInt ∧ imm.value.toInt < 2 ^ 32

def immToUInt8 : UInt8 := imm.value.toUInt64.toUInt8

def immToInt32 : Int32 := imm.value.toInt32

def immToInt64 : Int64 := imm.value

end Immediate

def scaleValue : ScaleFactor → Int32
  | .one => 0
  | .two => 1
  | .four => 2
  | .eight => 3

/-! ### Bytes -/

def emitByte (value : UInt8) : Emission := bytes [value]

/-- The bytes of `emitInt32` and `patchInt32`. -/
def int32Bytes (value : Int32) : List UInt8 :=
  [toUInt8 (value &&& 0xFF), toUInt8 (shiftRightLogical value 8 &&& 0xFF),
    toUInt8 (shiftRightLogical value 16 &&& 0xFF), toUInt8 (shiftRightLogical value 24 &&& 0xFF)]

def emitInt32 (value : Int32) : Emission := bytes (int32Bytes value)

def emitInt64 (value : Int64) : Emission :=
  emitInt32 value.toInt32 ++ emitInt32 (value.toUInt64 >>> 32).toInt64.toInt32

/-! ### Memory operands -/

namespace Address

def new : Address := ⟨0, []⟩

variable (address : Address)

def setModrm (mode : Int32) (reg : Register) : Option Address :=
  if address.bytes.length = 0 ∧ 0 ≤ mode ∧ mode < 4 then
    some {
      rex := if needsRexBit reg then toUInt8 (toInt32 address.rex ||| 0x41) else address.rex
      bytes := address.bytes ++ [toUInt8 (mode <<< 6 ||| lowBits reg)] }
  else none

/-- Both bits of the prefix depend on the base. -/
def setSib (scale : ScaleFactor) (index base : Register) : Option Address :=
  if address.bytes.length = 1 then
    let rex := if needsRexBit base then toUInt8 (toInt32 address.rex ||| 0x41) else address.rex
    some {
      rex := if needsRexBit base then toUInt8 (toInt32 rex ||| 0x42) else rex
      bytes := address.bytes ++
        [toUInt8 (scaleValue scale <<< 6 ||| lowBits index <<< 3 ||| lowBits base)] }
  else none

def setDisp8 (imm : Int32) : Option Address :=
  if address.bytes.length = 1 ∨ address.bytes.length = 2 then
    some { address with bytes := address.bytes ++ [toUInt8 imm] }
  else none

def setDisp32 (imm : Int32) : Option Address :=
  if address.bytes.length = 1 ∨ address.bytes.length = 2 then
    some { address with
      bytes := address.bytes ++
        [toUInt8 imm, toUInt8 (imm >>> 8), toUInt8 (imm >>> 16), toUInt8 (imm >>> 24)] }
  else none

def mode (base : Register) (disp : Int32) : Int32 :=
  if disp = 0 ∧ base ≠ RBP then 0b00
  else if -128 ≤ disp ∧ disp < 128 then 0b01
  else 0b10

def setDisp (mode : Int32) (disp : Int32) : Option Address :=
  if mode = 0b00 then some address
  else if mode = 0b01 then setDisp8 address disp
  else if mode = 0b10 then setDisp32 address disp
  else none

def offset (base : Register) (offset : Int32) : Option Address := do
  let address ← setModrm new (mode base offset) base
  let address ← if base = RSP then setSib address .one RSP base else some address
  setDisp address (mode base offset) offset

def index (index : Register) (factor : ScaleFactor) (disp : Int32) : Option Address := do
  let address ← setModrm new 0b00 RSP
  if index ≠ RSP then
    let address ← setSib address factor index RBP
    setDisp32 address disp
  else none

def array (base index : Register) (factor : ScaleFactor) (disp : Int32) : Option Address := do
  let address ← setModrm new (mode base disp) RSP
  if index ≠ RSP then
    let address ← setSib address factor index base
    setDisp address (mode base disp) disp
  else none

def rip (disp : Int32) : Option Address := do
  let address ← setModrm new 0b00 RBP
  setDisp32 address disp

def build : AddressForm → Option Address
  | .offset base disp => offset base disp
  | .index idx factor disp => index idx factor disp
  | .array base idx factor disp => array base idx factor disp
  | .rip disp => rip disp

end Address

/-! ### Prefixes and ModRM bytes -/

section Encoders

variable (w r x b : Bool) (opcode : UInt8) (digit : Int32) (reg : Register) (xreg : XmmRegister)
  (rm : Register) (xrm : XmmRegister) (imm : Immediate) (address : Address)

def emitRex (w r x b : Bool) : Emission :=
  emitByte (toUInt8 ((0x40 : Int32) ||| boolToInt32 w <<< 3 ||| boolToInt32 r <<< 2 |||
    boolToInt32 x <<< 1 ||| boolToInt32 b))

def emitRexOptional : Emission := if w || r || x || b then emitRex w r x b else bytes []

def emitRex64 : Emission := emitRex true false false false

def emitRex32RmFieldOptional : Emission :=
  if needsRexBit reg then emitRex false false false true else bytes []

def emitRex64RmField : Emission := emitRex true false false (needsRexBit rm)

def emitRex64ModRm : Emission := emitRex true (needsRexBit reg) false (needsRexBit rm)

def emitRex32ModRmOptional : Emission :=
  if needsRexBit reg || needsRexBit rm then emitRex false (needsRexBit reg) false (needsRexBit rm)
  else bytes []

def emitRex32ModRmByteOptional : Emission :=
  if needsRexBit reg || needsRexBit rm || decide (regValue rm > 3) then
    emitRex false (needsRexBit reg) false (needsRexBit rm)
  else bytes []

/-- A prefix for an address. -/
def rexOf (base : Int32) (address : Address) (needsRex : Bool) : UInt8 :=
  toUInt8 (base ||| toInt32 address.rex ||| if needsRex then 0x04 else 0)

def emitRex32ModRmAddressOptional : Emission :=
  if address.rex ≠ 0 ∨ needsRexBit reg then emitByte (rexOf 0x40 address (needsRexBit reg))
  else bytes []

def emitRex32ModRmAddressByteOptional : Emission :=
  if address.rex ≠ 0 ∨ regValue reg > 3 then emitByte (rexOf 0x40 address (needsRexBit reg))
  else bytes []

def emitRex32AddressOptional : Emission :=
  if address.rex ≠ 0 then emitByte (toUInt8 (0x40 ||| toInt32 address.rex)) else bytes []

def emitRex64ModRmAddress : Emission := emitByte (rexOf 0x48 address (needsRexBit reg))

def emitRex64Address : Emission := emitByte (toUInt8 (0x48 ||| toInt32 address.rex))

def emitRexSseModRmOptional : Emission :=
  if xmmNeedsRexBit xreg || xmmNeedsRexBit xrm then
    emitRex false (xmmNeedsRexBit xreg) false (xmmNeedsRexBit xrm)
  else bytes []

def emitRexSseAddressOptional : Emission :=
  if xmmNeedsRexBit xreg ∨ address.rex ≠ 0 then
    emitByte (rexOf 0x40 address (xmmNeedsRexBit xreg))
  else bytes []

def emitModRm (mode reg rm : Int32) : Emission :=
  check (mode < 4 ∧ reg < 8 ∧ rm < 8) ++ emitByte (toUInt8 (mode <<< 6 ||| reg <<< 3 ||| rm))

def emitModRmReg : Emission := emitModRm 0b11 (lowBits reg) (lowBits rm)

def emitModRmOpcode (opcode : Int32) (rm : Register) : Emission :=
  emitModRm 0b11 opcode (lowBits rm)

def emitModRmSseRegisters : Emission := emitModRm 0b11 (xmmLowBits xreg) (xmmLowBits xrm)

def emitAddress (regOrOpcode : Int32) (address : Address) : Emission :=
  check (regOrOpcode < 8) ++
    match address.bytes with
    | [] => fail
    | modrm :: rest => bytes (toUInt8 (regOrOpcode <<< 3 ||| toInt32 modrm) :: rest)

/-! ### Families of instructions -/

def emitAlu64Imm (reg : Register) (imm : Immediate) (modrmReg : Int32) (raxOpcode : UInt8) :
    Emission :=
  check (isInt32 imm) ++ emitRex64RmField reg ++
    if isInt8 imm then
      emitByte 0x83 ++ emitModRm 0b11 modrmReg (lowBits reg) ++ emitByte (immToUInt8 imm)
    else if reg = RAX then emitByte raxOpcode ++ emitInt32 (immToInt32 imm)
    else emitByte 0x81 ++ emitModRm 0b11 modrmReg (lowBits reg) ++ emitInt32 (immToInt32 imm)

def emitAlu32Imm (reg : Register) (imm : Immediate) (modrmReg : Int32) (raxOpcode : UInt8) :
    Emission :=
  check (isInt32 imm) ++ emitRex32RmFieldOptional reg ++
    if isInt8 imm then
      emitByte 0x83 ++ emitModRmOpcode modrmReg reg ++ emitByte (immToUInt8 imm)
    else if reg = RAX then emitByte raxOpcode ++ emitInt32 (immToInt32 imm)
    else emitByte 0x81 ++ emitModRmOpcode modrmReg reg ++ emitInt32 (immToInt32 imm)

def regs32 : Emission := emitRex32ModRmOptional reg rm ++ emitByte opcode ++ emitModRmReg reg rm

def regs64 : Emission := emitRex64ModRm reg rm ++ emitByte opcode ++ emitModRmReg reg rm

def extRegs32 : Emission :=
  emitRex32ModRmOptional reg rm ++ emitByte 0x0F ++ emitByte opcode ++ emitModRmReg reg rm

def extRegs64 : Emission :=
  emitRex64ModRm reg rm ++ emitByte 0x0F ++ emitByte opcode ++ emitModRmReg reg rm

def extRegsByte : Emission :=
  emitRex32ModRmByteOptional reg rm ++ emitByte 0x0F ++ emitByte opcode ++ emitModRmReg reg rm

def unary32 : Emission :=
  emitRex32RmFieldOptional reg ++ emitByte opcode ++ emitModRmOpcode digit reg

def unary64 : Emission := emitRex64RmField reg ++ emitByte opcode ++ emitModRmOpcode digit reg

def shiftImm32 : Emission :=
  check (isInt8 imm) ++ unary32 0xC1 digit reg ++ emitByte (immToUInt8 imm)

def shiftImm64 : Emission :=
  check (isInt8 imm) ++ unary64 0xC1 digit reg ++ emitByte (immToUInt8 imm)

def sseRegs : Emission :=
  emitRexSseModRmOptional xreg xrm ++ emitByte 0x0F ++ emitByte opcode ++
    emitModRmSseRegisters xreg xrm

def sseReg : Emission :=
  emitRexOptional w (xmmNeedsRexBit xreg) false (needsRexBit rm) ++ emitByte 0x0F ++
    emitByte opcode ++ emitModRm 0b11 (xmmLowBits xreg) (lowBits rm)

def regSse : Emission :=
  emitRexOptional w (needsRexBit reg) false (xmmNeedsRexBit xrm) ++ emitByte 0x0F ++
    emitByte opcode ++ emitModRm 0b11 (lowBits reg) (xmmLowBits xrm)

def mem8 : Emission :=
  emitRex32ModRmAddressByteOptional reg address ++ emitByte opcode ++
    emitAddress (lowBits reg) address

def mem32 : Emission :=
  emitRex32ModRmAddressOptional reg address ++ emitByte opcode ++ emitAddress (lowBits reg) address

def mem64 : Emission :=
  emitRex64ModRmAddress reg address ++ emitByte opcode ++ emitAddress (lowBits reg) address

def extMem32 : Emission :=
  emitRex32ModRmAddressOptional reg address ++ emitByte 0x0F ++ emitByte opcode ++
    emitAddress (lowBits reg) address

def extMem64 : Emission :=
  emitRex64ModRmAddress reg address ++ emitByte 0x0F ++ emitByte opcode ++
    emitAddress (lowBits reg) address

def sseMem : Emission :=
  emitRexSseAddressOptional xreg address ++ emitByte 0x0F ++ emitByte opcode ++
    emitAddress (xmmLowBits xreg) address

end Encoders

/-! ### Instructions -/

/-- The bytes of an instruction. -/
def emit : Inst → Emission
  | .addlRr dest src => regs32 0x01 src dest
  | .addqRi reg imm => emitAlu64Imm reg imm 0b000 0x05
  | .addqRr dest src => regs64 0x01 src dest
  | .addssRr dest src => emitByte 0xF3 ++ sseRegs 0x58 dest src
  | .addsdRr dest src => emitByte 0xF2 ++ sseRegs 0x58 dest src
  | .andlRr dest src => regs32 0x21 src dest
  | .andqRi lhs imm => emitAlu64Imm lhs imm 0b100 0x25
  | .andqRr dest src => regs64 0x21 src dest
  | .callR src => unary32 0xFF 0b010 src
  | .cdq => emitByte 0x99
  | .cmovl condition dest src => extRegs32 (toUInt8 (0x40 + conditionToInt32 condition)) dest src
  | .cmovq condition dest src => extRegs64 (toUInt8 (0x40 + conditionToInt32 condition)) dest src
  | .cmplRi lhs imm => emitAlu32Imm lhs imm 0b111 0x3D
  | .cmplRr dest src => regs32 0x39 src dest
  | .cmpqRi lhs imm => emitAlu64Imm lhs imm 0b111 0x3D
  | .cmpqRr dest src => regs64 0x39 src dest
  | .cqo => emitRex64 ++ emitByte 0x99
  | .cvtsd2ssRr dest src => emitByte 0xF2 ++ sseRegs 0x5A dest src
  | .cvtsi2ssdRr dest src => emitByte 0xF3 ++ sseReg false 0x2A dest src
  | .cvtsi2ssqRr dest src => emitByte 0xF3 ++ sseReg true 0x2A dest src
  | .cvtsi2sddRr dest src => emitByte 0xF2 ++ sseReg false 0x2A dest src
  | .cvtsi2sdqRr dest src => emitByte 0xF2 ++ sseReg true 0x2A dest src
  | .cvtss2sdRr dest src => emitByte 0xF3 ++ sseRegs 0x5A dest src
  | .cvttsd2sidRr dest src => emitByte 0xF2 ++ regSse false 0x2C dest src
  | .cvttsd2siqRr dest src => emitByte 0xF2 ++ regSse true 0x2C dest src
  | .cvttss2sidRr dest src => emitByte 0xF3 ++ regSse false 0x2C dest src
  | .cvttss2siqRr dest src => emitByte 0xF3 ++ regSse true 0x2C dest src
  | .divssRr dest src => emitByte 0xF3 ++ sseRegs 0x5E dest src
  | .divsdRr dest src => emitByte 0xF2 ++ sseRegs 0x5E dest src
  | .idivlR src => unary32 0xF7 0b111 src
  | .idivqR src => unary64 0xF7 0b111 src
  | .imullRr dest src => extRegs32 0xAF dest src
  | .imulqRr dest src => extRegs64 0xAF dest src
  | .int3 => emitByte 0xCC
  | .jmpR reg => unary32 0xFF 0b100 reg
  | .lzcntlRr dest src => emitByte 0xF3 ++ extRegs32 0xBD dest src
  | .lzcntqRr dest src => emitByte 0xF3 ++ extRegs64 0xBD dest src
  | .movdRx dest src => emitByte 0x66 ++ sseReg false 0x7E src dest
  | .movdXr dest src => emitByte 0x66 ++ sseReg false 0x6E dest src
  | .movlRi dest imm =>
    check (isInt32 imm) ++ emitRex32RmFieldOptional dest ++
      emitByte (toUInt8 (0xB8 + lowBits dest)) ++ emitInt32 (immToInt32 imm)
  | .movlRr dest src => regs32 0x89 src dest
  | .movqRi dest imm =>
    if isInt32 imm then
      emitRex64RmField dest ++ emitByte 0xC7 ++ emitModRmOpcode 0 dest ++ emitInt32 (immToInt32 imm)
    else
      emitRex64RmField dest ++ emitByte (toUInt8 (0xB8 + lowBits dest)) ++
        emitInt64 (immToInt64 imm)
  | .movqRr dest src => regs64 0x89 src dest
  | .movqRx dest src => emitByte 0x66 ++ sseReg true 0x7E src dest
  | .movqXr dest src => emitByte 0x66 ++ sseReg true 0x6E dest src
  | .movsdRr dest src => emitByte 0xF2 ++ sseRegs 0x10 dest src
  | .movssRr dest src => emitByte 0xF3 ++ sseRegs 0x10 dest src
  | .movsxblRr dest src => extRegsByte 0xBE dest src
  | .movsxbqRr dest src => extRegs64 0xBE dest src
  | .movsxlqRr dest src => regs64 0x63 dest src
  | .movzxbRr dest src => extRegsByte 0xB6 dest src
  | .mulssRr dest src => emitByte 0xF3 ++ sseRegs 0x59 dest src
  | .mulsdRr dest src => emitByte 0xF2 ++ sseRegs 0x59 dest src
  | .negl reg => unary32 0xF7 0b011 reg
  | .negq reg => unary64 0xF7 0b011 reg
  | .nop => emitByte 0x90
  | .notl reg => unary32 0xF7 0b010 reg
  | .notq reg => unary64 0xF7 0b010 reg
  | .orlRr dest src => regs32 0x09 src dest
  | .orqRr dest src => regs64 0x09 src dest
  | .pushqR reg => emitRex32RmFieldOptional reg ++ emitByte (toUInt8 (0x50 + lowBits reg))
  | .popcntlRr dest src => emitByte 0xF3 ++ extRegs32 0xB8 dest src
  | .popcntqRr dest src => emitByte 0xF3 ++ extRegs64 0xB8 dest src
  | .popqR reg => emitRex32RmFieldOptional reg ++ emitByte (toUInt8 (0x58 + lowBits reg))
  | .pxorRr dest src => emitByte 0x66 ++ sseRegs 0xEF dest src
  | .retq => emitByte 0xC3
  | .rollR reg => unary32 0xD3 0b000 reg
  | .rolqR reg => unary64 0xD3 0b000 reg
  | .rorlR reg => unary32 0xD3 0b001 reg
  | .rorqR reg => unary64 0xD3 0b001 reg
  | .sarlR reg => unary32 0xD3 0b111 reg
  | .sarlRi lhs rhs => shiftImm32 0b111 lhs rhs
  | .sarqR reg => unary64 0xD3 0b111 reg
  | .sarqRi lhs rhs => shiftImm64 0b111 lhs rhs
  | .setccR condition dest =>
    (if needsRexBit dest || decide (lowBits dest > 3) then
      emitRex false false false (needsRexBit dest) else bytes []) ++
    emitByte 0x0F ++ emitByte (toUInt8 (0x90 + conditionToInt32 condition)) ++
      emitModRmOpcode 0 dest
  | .shllR reg => unary32 0xD3 0b100 reg
  | .shllRi lhs rhs => shiftImm32 0b100 lhs rhs
  | .shlqR reg => unary64 0xD3 0b100 reg
  | .shlqRi lhs rhs => shiftImm64 0b100 lhs rhs
  | .shrlR reg => unary32 0xD3 0b101 reg
  | .shrlRi lhs rhs => shiftImm32 0b101 lhs rhs
  | .shrqR reg => unary64 0xD3 0b101 reg
  | .shrqRi lhs rhs => shiftImm64 0b101 lhs rhs
  | .sqrtssRr dest src => emitByte 0xF3 ++ sseRegs 0x51 dest src
  | .sqrtsdRr dest src => emitByte 0xF2 ++ sseRegs 0x51 dest src
  | .sublRr dest src => regs32 0x29 src dest
  | .subqRi reg imm => emitAlu64Imm reg imm 0b101 0x2D
  | .subqRr dest src => regs64 0x29 src dest
  | .subssRr dest src => emitByte 0xF3 ++ sseRegs 0x5C dest src
  | .subsdRr dest src => emitByte 0xF2 ++ sseRegs 0x5C dest src
  | .testlRr lhs rhs => regs32 0x85 rhs lhs
  | .testlRi lhs imm =>
    check (isInt32 imm) ++
      if isUInt8 imm then
        (if lhs = RAX then emitByte 0xA8
          else if regValue lhs < 4 then emitByte 0xF6 ++ emitModRmOpcode 0b000 lhs
          else emitRex false false false (needsRexBit lhs) ++ emitByte 0xF6 ++
            emitModRmOpcode 0b000 lhs) ++
        emitByte (immToUInt8 imm)
      else if lhs = RAX then emitByte 0xA9 ++ emitInt32 (immToInt32 imm)
      else emitByte 0xF7 ++ emitModRmOpcode 0b000 lhs ++ emitInt32 (immToInt32 imm)
  | .testqRr lhs rhs => regs64 0x85 rhs lhs
  | .tzcntlRr dest src => emitByte 0xF3 ++ extRegs32 0xBC dest src
  | .tzcntqRr dest src => emitByte 0xF3 ++ extRegs64 0xBC dest src
  | .ucomissRr dest src => sseRegs 0x2E dest src
  | .ucomisdRr dest src => emitByte 0x66 ++ sseRegs 0x2E dest src
  | .xorlRr dest src => regs32 0x31 src dest
  | .xorlRi lhs rhs => emitAlu32Imm lhs rhs 0b110 0x35
  | .xorpsRr dest src => sseRegs 0x57 dest src
  | .xorqRr dest src => regs64 0x31 src dest
  -- the other assembler alone has these
  | .addlRi _ _ | .subqRi32 _ _ | .roundssRi _ _ | .roundsdRi _ _ => fail

/-- The bytes of an instruction with the given memory operand. -/
def emitMem (address : Address) : MemInst → Emission
  | .cmpbAi rhs =>
    check (isInt8 rhs || isUInt8 rhs) ++ emitRex32AddressOptional address ++ emitByte 0x80 ++
      emitAddress 0b111 address ++ emitByte (immToUInt8 rhs)
  | .cmpbAr rhs => mem8 0x38 rhs address
  | .cmplAi imm =>
    check (isInt32 imm || isUInt32 imm) ++ emitRex32AddressOptional address ++
      if isInt8 imm then emitByte 0x83 ++ emitAddress 0b111 address ++ emitByte (immToUInt8 imm)
      else emitByte 0x81 ++ emitAddress 0b111 address ++ emitInt32 (immToInt32 imm)
  | .cmplAr rhs => mem32 0x39 rhs address
  | .cmpqAi imm =>
    check (isInt32 imm) ++ emitRex64Address address ++
      if isInt8 imm then emitByte 0x83 ++ emitAddress 0b111 address ++ emitByte (immToUInt8 imm)
      else emitByte 0x81 ++ emitAddress 0b111 address ++ emitInt32 (immToInt32 imm)
  | .cmpqAr rhs => mem64 0x39 rhs address
  | .lea dest => mem64 0x8D dest address
  | .movbAi src =>
    check (isInt8 src || isUInt8 src) ++ emitRex32AddressOptional address ++ emitByte 0xC6 ++
      emitAddress 0b000 address ++ emitByte (immToUInt8 src)
  | .movbAr src => mem8 0x88 src address
  | .movlAi imm =>
    check (isInt32 imm || isUInt32 imm) ++ emitRex32AddressOptional address ++ emitByte 0xC7 ++
      emitAddress 0b000 address ++ emitInt32 (immToInt32 imm)
  | .movlAr src => mem32 0x89 src address
  | .movlRa dest => mem32 0x8B dest address
  | .movqAr src => mem64 0x89 src address
  | .movqAi imm =>
    check (isInt32 imm) ++ emitRex64Address address ++ emitByte 0xC7 ++ emitAddress 0b000 address ++
      emitInt32 (immToInt32 imm)
  | .movqRa dest => mem64 0x8B dest address
  | .movsdRa dest => emitByte 0xF2 ++ sseMem 0x10 dest address
  | .movsdAr src => emitByte 0xF2 ++ sseMem 0x11 src address
  | .movssAr src => emitByte 0xF3 ++ sseMem 0x11 src address
  | .movssRa dest => emitByte 0xF3 ++ sseMem 0x10 dest address
  | .movsxblRa dest => extMem32 0xBE dest address
  | .movsxbqRa dest => extMem64 0xBE dest address
  | .movzxbRa dest => extMem32 0xB6 dest address
  | .testlAr rhs => mem32 0x85 rhs address
  | .testlAi rhs =>
    check (isInt32 rhs) ++ emitRex32AddressOptional address ++ emitByte 0xF7 ++
      emitAddress 0b000 address ++ emitInt32 (immToInt32 rhs)
  | .testqAi rhs =>
    check (isInt32 rhs) ++ emitRex64Address address ++ emitByte 0xF7 ++ emitAddress 0b000 address ++
      emitInt32 (immToInt32 rhs)
  | .testqAr rhs => mem64 0x85 rhs address
  | .xorpdRa dest => emitByte 0x66 ++ sseMem 0x57 dest address
  | .xorpsRa dest => sseMem 0x57 dest address
  -- the other assembler alone has these
  | .xchgqAr _ | .xchglAr _ | .cmpxchgqAr _ | .cmpxchglAr _ | .lockCmpxchgqAr _
  | .lockCmpxchglAr _ | .andpsRa _ | .xaddqAr _ | .xaddlAr _ | .lockXaddqAr _
  | .lockXaddlAr _ => fail

def emitMemWith (inst : MemInst) (form : AddressForm) : Emission :=
  match Address.build form with
  | none => fail
  | some address => emitMem address inst

/-! ### Jumps and labels -/

/-- The assembler: the buffer, the labels in the order in which they were created, and the jumps to
resolve. A label that is not bound has the offset -1, here none. -/
structure AssemblerX64 where
  buffer : List UInt8
  labels : List (Option ℕ)
  jumps : List ForwardJump
deriving DecidableEq

namespace AssemblerX64

def new : AssemblerX64 := ⟨[], [], []⟩

variable (a : AssemblerX64)

def size : ℕ := a.buffer.length

def push (e : Emission) : Option AssemblerX64 :=
  match e with
  | none => none
  | some bytes => some { a with buffer := a.buffer ++ bytes }

def createLabel : AssemblerX64 := { a with labels := a.labels ++ [none] }

def bindLabel (lbl : Label) : Option AssemblerX64 :=
  match a.labels[lbl]? with
  | some none => some { a with labels := a.labels.set lbl (some a.size) }
  | _ => none

def createAndBindLabel : Option AssemblerX64 := a.createLabel.bindLabel a.labels.length

def emitJump (lbl : Label) (kind : JumpDistance) : AssemblerX64 :=
  { a with jumps := a.jumps ++ [⟨a.size, lbl, kind⟩] }

/-- A jump in the short or the far form, which takes `farSize` bytes. -/
def jumpTo (short far : List UInt8) (farSize : ℕ) (dest : Label) : Option AssemblerX64 := do
  match ← a.labels[dest]? with
  | some offset =>
    let distance : ℤ := offset - (a.size + 2)
    if distance ≤ -2 then
      if distance ≥ -128 then
        a.push (bytes short ++ emitByte (UInt8.ofInt distance))
      else
        let distance : ℤ := offset - (a.size + farSize)
        if (Int32.ofInt distance).toInt = distance then
          a.push (bytes far ++ emitInt32 (Int32.ofInt distance))
        else none
    else none
  | none =>
    let a ← a.push (bytes far)
    (a.emitJump dest .far).push (emitInt32 0)

def jumpNearTo (short : List UInt8) (dest : Label) : Option AssemblerX64 := do
  match ← a.labels[dest]? with
  | some offset =>
    let distance : ℤ := offset - (a.size + 2)
    if -128 ≤ distance ∧ distance ≤ -2 then
      a.push (bytes short ++ emitByte (UInt8.ofInt distance))
    else none
  | none =>
    let a ← a.push (bytes short)
    (a.emitJump dest .near).push (emitByte 0)

/-- Bytes in the buffer are replaced; they have to be there. -/
def patch (offset : ℕ) (bytes : List UInt8) : Option AssemblerX64 :=
  if offset + bytes.length ≤ a.buffer.length then
    some { a with buffer := Fixups.patch a.buffer offset bytes }
  else none

def resolveJump (jump : ForwardJump) : Option AssemblerX64 :=
  match a.labels[jump.label]? with
  | some (some offset) =>
    match jump.distance with
    | .near =>
      let distance : ℤ := offset - (jump.offset + 1)
      if -128 ≤ distance ∧ distance ≤ 127 then a.patch jump.offset [UInt8.ofInt distance] else none
    | .far =>
      let distance : ℤ := offset - (jump.offset + 4)
      if (Int32.ofInt distance).toInt = distance then
        a.patch jump.offset (int32Bytes (Int32.ofInt distance))
      else none
  | _ => none

def resolveJumps : Option AssemblerX64 := do
  let a ← a.jumps.foldlM resolveJump a
  some { a with jumps := [] }

/-- The code is filled up with `int3`. -/
def finalize : Option (List UInt8) := do
  let a ← a.resolveJumps
  let a ← whileLoop (fun a : AssemblerX64 => a.size % 16 ≠ 0) (fun a => a.push (emit .int3)) 17 a
  some a.buffer

def finalizeTesting : Option (List UInt8) := a.resolveJumps.map (·.buffer)

/-- The methods: what each of them does. -/
def step : Call → Option AssemblerX64
  | .inst inst => a.push (emit inst)
  | .mem inst form => a.push (emitMemWith inst form)
  | .createLabel => some a.createLabel
  | .createAndBindLabel => a.createAndBindLabel
  | .bindLabel lbl => a.bindLabel lbl
  | .jcc condition dest =>
    a.jumpTo [toUInt8 (0x70 + conditionToInt32 condition)]
      [0x0F, toUInt8 (0x80 + conditionToInt32 condition)] 6 dest
  | .jccNear condition dest => a.jumpNearTo [toUInt8 (0x70 + conditionToInt32 condition)] dest
  | .jmp dest => a.jumpTo [0xEB] [0xE9] 5 dest
  | .jmpNear dest => a.jumpNearTo [0xEB] dest
  -- these are no public functions here
  | .emitU8 _ | .emitU32 _ | .emitU64 _ => none

end AssemblerX64

end Dora.Asm.Boots
