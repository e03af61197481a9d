import Dora.Asm.Arm64Assembler
import Dora.Masm.Checked

/-!
# Integer arithmetic of the arm64 macro assembler

## Main definitions

* `Arm64.Insn`, `Arm64.Insn.exec`: the instructions for checked arithmetic, by their classes and
  fields, and their meaning by the rules of the instruction set manual
* `Arm64.intDiv`, `Arm64.intMulChecked`, `Arm64.intAddChecked`: the sequences that are emitted
-/

namespace Dora.Masm

namespace Arm64

open Asm.Arm64 (Register Cond JumpKind REG_ZERO)

/-! ## Instructions -/

inductive Shift
  | LSL | LSR | ASR | ROR
deriving DecidableEq

inductive Extend
  | UXTB | UXTH | LSL | UXTW | UXTX | SXTB | SXTH | SXTW | SXTX
deriving DecidableEq

/-- The classes of instructions, with their fields. -/
inductive Insn
  | addsubExtreg (sf op s opt : ℕ) (rm : Register) (option : Extend) (imm3 : ℕ) (rn rd : Register)
  | addsubShreg (sf op s : ℕ) (shift : Shift) (rm : Register) (imm6 : ℕ) (rn rd : Register)
  | addsubImm (sf op s shift imm12 : ℕ) (rn rd : Register)
  | dataproc2 (sf s : ℕ) (rm : Register) (opcode : ℕ) (rn rd : Register)
  | dataproc3 (sf op54 op31 : ℕ) (rm : Register) (o0 : ℕ) (ra rn rd : Register)
  | logicalShreg (sf opc : ℕ) (shift : Shift) (n : ℕ) (rm : Register) (imm6 : ℕ) (rn rd : Register)
  | moveWideImm (sf opc hw imm16 : ℕ) (rd : Register)
deriving DecidableEq

def addsW (rd rn rm : Register) : Insn := .addsubShreg 0 0 1 .LSL rm 0 rn rd
def adds (rd rn rm : Register) : Insn := .addsubShreg 1 0 1 .LSL rm 0 rn rd
def subsW (rd rn rm : Register) : Insn := .addsubShreg 0 1 1 .LSL rm 0 rn rd
def subs (rd rn rm : Register) : Insn := .addsubShreg 1 1 1 .LSL rm 0 rn rd
def addsImmW (rd rn : Register) (imm12 shift : ℕ) : Insn := .addsubImm 0 0 1 shift imm12 rn rd
def addsImm (rd rn : Register) (imm12 shift : ℕ) : Insn := .addsubImm 1 0 1 shift imm12 rn rd
def subsExt (rd rn rm : Register) (extend : Extend) (amount : ℕ) : Insn :=
  .addsubExtreg 1 1 1 0 rm extend amount rn rd
def cmpW (rn rm : Register) : Insn := subsW REG_ZERO rn rm
def cmp (rn rm : Register) : Insn := subs REG_ZERO rn rm
def cmnImmW (rn : Register) (imm12 shift : ℕ) : Insn := addsImmW REG_ZERO rn imm12 shift
def cmnImm (rn : Register) (imm12 shift : ℕ) : Insn := addsImm REG_ZERO rn imm12 shift
def cmpExt (rn rm : Register) (extend : Extend) (amount : ℕ) : Insn :=
  subsExt REG_ZERO rn rm extend amount
def cmpSh (rn rm : Register) (shift : Shift) (amount : ℕ) : Insn :=
  .addsubShreg 1 1 1 shift rm amount rn REG_ZERO
def madd (rd rn rm ra : Register) : Insn := .dataproc3 1 0 0 rm 0 ra rn rd
def mul (rd rn rm : Register) : Insn := madd rd rn rm REG_ZERO
def msub (rd rn rm ra : Register) : Insn := .dataproc3 1 0 0 rm 1 ra rn rd
def msubW (rd rn rm ra : Register) : Insn := .dataproc3 0 0 0 rm 1 ra rn rd
def smaddl (rd rn rm ra : Register) : Insn := .dataproc3 1 0b00 0b001 rm 0 ra rn rd
def smull (rd rn rm : Register) : Insn := smaddl rd rn rm REG_ZERO
def smulh (rd rn rm : Register) : Insn := .dataproc3 1 0 0b010 rm 0 REG_ZERO rn rd
def sdiv (rd rn rm : Register) : Insn := .dataproc2 1 0 rm 0b11 rn rd
def sdivW (rd rn rm : Register) : Insn := .dataproc2 0 0 rm 0b11 rn rd
def movz (rd : Register) (imm16 shift : ℕ) : Insn := .moveWideImm 1 0b10 shift imm16 rd
def movzW (rd : Register) (imm16 shift : ℕ) : Insn := .moveWideImm 0 0b10 shift imm16 rd

/-- `mov`, for registers other than the stack pointer. -/
def mov (rd rs : Register) : Insn := .logicalShreg 1 0b01 .LSL 0 rs 0 REG_ZERO rd

/-! ## Meaning -/

structure Flags where
  n : Bool
  z : Bool
  c : Bool
  v : Bool

/-- `ConditionHolds` of the manual. -/
def Flags.holds (f : Flags) : Cond → Bool
  | .EQ => f.z
  | .NE => !f.z
  | .CS | .HS => f.c
  | .CC | .LO => !f.c
  | .MI => f.n
  | .PL => !f.n
  | .VS => f.v
  | .VC => !f.v
  | .HI => f.c && !f.z
  | .LS => !(f.c && !f.z)
  | .GE => f.n == f.v
  | .LT => f.n != f.v
  | .GT => f.n == f.v && !f.z
  | .LE => !(f.n == f.v && !f.z)

structure State where
  regs : Register → BitVec 64
  flags : Flags

namespace State

variable (s : State) (w : ℕ)

/-- The low `w` bits of a register. -/
def read (r : Register) : BitVec w := if r = REG_ZERO then 0 else Registers.read s.regs w r

/-- A register is written; the bits above are cleared. Writes to the zero register are lost. -/
def write (r : Register) (x : BitVec w) : State :=
  if r = REG_ZERO then s else ⟨Registers.write s.regs r x, s.flags⟩

def setFlags (flags : Flags) : State := ⟨s.regs, flags⟩

end State

/-- `AddWithCarry` of the manual. -/
def addWithCarry {w : ℕ} (x y : BitVec w) (carry : Bool) : BitVec w × Flags :=
  let result := x + y + BitVec.ofNat w carry.toNat
  (result, ⟨result.msb, result = 0, result.toNat ≠ x.toNat + y.toNat + carry.toNat,
    result.toInt ≠ x.toInt + y.toInt + carry.toNat⟩)

/-- Addition (`op = 0`) or subtraction (`op = 1`) of a second operand, with flags if `s = 1`. -/
def addsub {w : ℕ} (op s : ℕ) (x y : BitVec w) (rd : Register) (st : State) : State :=
  let (result, flags) := if op = 1 then addWithCarry x (~~~y) true else addWithCarry x y false
  let st := st.write w rd result
  if s = 1 then st.setFlags flags else st

def shiftReg {w : ℕ} (x : BitVec w) (amount : ℕ) : Shift → BitVec w
  | .LSL => x <<< amount
  | .LSR => x >>> amount
  | .ASR => x.sshiftRight amount
  | .ROR => x.rotateRight amount

/-- `ExtendReg` of the manual. -/
def extendReg (x : BitVec 64) (w amount : ℕ) : Extend → BitVec w
  | .UXTB => (x.setWidth 8).setWidth w <<< amount
  | .UXTH => (x.setWidth 16).setWidth w <<< amount
  | .UXTW => (x.setWidth 32).setWidth w <<< amount
  | .LSL | .UXTX => x.setWidth w <<< amount
  | .SXTB => (x.setWidth 8).signExtend w <<< amount
  | .SXTH => (x.setWidth 16).signExtend w <<< amount
  | .SXTW => (x.setWidth 32).signExtend w <<< amount
  | .SXTX => x.signExtend w <<< amount

/-- The meaning of an instruction at a width. Instructions that are not used have none. -/
def execAt (w : ℕ) (s : State) : Insn → Option State
  | .addsubExtreg _ op setFlags _ rm option imm3 rn rd =>
    some (addsub op setFlags (s.read w rn) (extendReg (s.read 64 rm) w imm3 option) rd s)
  | .addsubShreg _ op setFlags shift rm imm6 rn rd =>
    some (addsub op setFlags (s.read w rn) (shiftReg (s.read w rm) imm6 shift) rd s)
  | .addsubImm _ op setFlags shift imm12 rn rd =>
    some (addsub op setFlags (s.read w rn) (BitVec.ofNat w imm12 <<< (12 * shift)) rd s)
  | .dataproc2 _ _ rm 0b11 rn rd => some (s.write w rd ((s.read w rn).sdiv (s.read w rm)))
  | .dataproc3 _ _ 0b000 rm 0 ra rn rd =>
    some (s.write w rd (s.read w ra + s.read w rn * s.read w rm))
  | .dataproc3 _ _ 0b000 rm 1 ra rn rd =>
    some (s.write w rd (s.read w ra - s.read w rn * s.read w rm))
  | .dataproc3 _ _ 0b001 rm 0 ra rn rd =>
    some (s.write 64 rd (s.read 64 ra +
      (s.read 32 rn).signExtend 64 * (s.read 32 rm).signExtend 64))
  | .dataproc3 _ _ 0b010 rm 0 _ rn rd =>
    some (s.write 64 rd (BitVec.mulHigh (s.read 64 rn) (s.read 64 rm)))
  | .logicalShreg _ 0b01 shift 0 rm imm6 rn rd =>
    some (s.write w rd (s.read w rn ||| shiftReg (s.read w rm) imm6 shift))
  | .moveWideImm _ 0b10 hw imm16 rd => some (s.write w rd (BitVec.ofNat w imm16 <<< (16 * hw)))
  | _ => none

/-- The field that selects the width. -/
def Insn.sf : Insn → ℕ
  | addsubExtreg sf _ _ _ _ _ _ _ _ | addsubShreg sf _ _ _ _ _ _ _ | addsubImm sf _ _ _ _ _ _
  | dataproc2 sf _ _ _ _ _ | dataproc3 sf _ _ _ _ _ _ _ | logicalShreg sf _ _ _ _ _ _ _
  | moveWideImm sf _ _ _ _ => sf

/-- **The meaning of an instruction.** -/
def Insn.exec (i : Insn) (s : State) : Option State :=
  if i.sf = 1 then execAt 64 s i else execAt 32 s i

/-- The condition of a branch. -/
def test (s : State) : JumpKind → Bool
  | .unconditional => true
  | .conditional cond => s.flags.holds cond
  | .zero sf reg => if sf then s.read 64 reg = 0 else s.read 32 reg = 0
  | .nonZero sf reg => if sf then s.read 64 reg ≠ 0 else s.read 32 reg ≠ 0

/-! ## Sequences -/

abbrev Code := List (Item Insn JumpKind Lbl Trap)

def run (code : Code) (s : State) : Exit State Trap :=
  Listing.run Insn.exec (fun b s => some (test s b)) code s

def cbz (reg : Register) (target : Lbl) : Item Insn JumpKind Lbl Trap :=
  .branch (.zero true reg) target
def cbzW (reg : Register) (target : Lbl) : Item Insn JumpKind Lbl Trap :=
  .branch (.zero false reg) target
def bcL (cond : Cond) (target : Lbl) : Item Insn JumpKind Lbl Trap :=
  .branch (.conditional cond) target

variable (mode : MachineMode)

/-- `divmod_common`, with the scratch registers that it gets. -/
def divmodCommon (dest lhs rhs scratch scratch' : Register) (isDiv : Bool) :
    Code :=
  (match mode with
    | .int32 => [cbz rhs .zero]
    | .int64 => [cbzW rhs .zero]) ++
  [.bailout .zero .DIV0] ++
  (match mode with
    | .int32 => [.op (movzW scratch 0x8000 1), .op (cmpW lhs scratch), bcL .NE .div,
        .op (cmnImmW rhs 1 0), bcL .EQ .overflow]
    | .int64 => [.op (movz scratch 0x8000 3), .op (cmp lhs scratch), bcL .NE .div,
        .op (cmnImm rhs 1 0), bcL .EQ .overflow]) ++
  [.bailout .overflow .OVERFLOW, .bind .div] ++
  (if isDiv then
    match mode with
    | .int32 => [.op (sdivW dest lhs rhs)]
    | .int64 => [.op (sdiv dest lhs rhs)]
  else
    match mode with
    | .int32 => [.op (sdivW scratch' lhs rhs), .op (msub dest scratch' rhs lhs)]
    | .int64 => [.op (sdiv scratch' lhs rhs), .op (msubW dest scratch' rhs lhs)])

def intDiv (dest lhs rhs scratch scratch' : Register) : Code :=
  divmodCommon mode dest lhs rhs scratch scratch' true

def intMod (dest lhs rhs scratch scratch' : Register) : Code :=
  divmodCommon mode dest lhs rhs scratch scratch' false

/-- `int_mul_checked`, with the scratch register that it gets. -/
def intMulChecked (dest lhs rhs tmp : Register) : Code :=
  match mode with
  | .int32 => [.op (smull dest lhs rhs), .op (cmpExt dest dest .SXTW 0), bcL .NE .overflow,
      .bailout .overflow .OVERFLOW]
  | .int64 =>
    (if lhs = dest then [.op (mov tmp lhs)]
      else if rhs = dest then [.op (mov tmp rhs)]
      else []) ++
    [.op (mul dest lhs rhs)] ++
    (if lhs = dest then [.op (smulh tmp tmp rhs)]
      else if rhs = dest then [.op (smulh tmp lhs tmp)]
      else [.op (smulh tmp lhs rhs)]) ++
    [.op (cmpSh tmp dest .ASR 63), bcL .NE .overflow, .bailout .overflow .OVERFLOW]

def intAddChecked (dest lhs rhs : Register) : Code :=
  (match mode with
    | .int32 => [.op (addsW dest lhs rhs)]
    | .int64 => [.op (adds dest lhs rhs)]) ++
  [bcL .VS .overflow, .bailout .overflow .OVERFLOW]

def intSubChecked (dest lhs rhs : Register) : Code :=
  (match mode with
    | .int32 => [.op (subsW dest lhs rhs)]
    | .int64 => [.op (subs dest lhs rhs)]) ++
  [bcL .VS .overflow, .bailout .overflow .OVERFLOW]

end Arm64

end Dora.Masm
