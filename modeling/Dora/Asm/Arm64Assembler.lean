import Dora.Asm.Buffer

/-!
# Branches and labels of the arm64 assembler

A branch to a label that is bound is written at once; to one that is not, a word is left open and
rewritten as a whole when the jumps are resolved. All other instructions are calls that write an
arbitrary word.

## Main definitions

* `JumpKind`, `ForwardJump`: branches, and the words that are left open
* `AssemblerArm64.step`: the calls of `AssemblerArm64`
-/

namespace Dora.Asm.Arm64

/-! ### Operands -/

/-- A register: one of the 31 general ones, the zero register or the stack pointer. -/
structure Register where
  value : UInt8
  valid : value < 31 ∨ value = 100 ∨ value = 101
deriving DecidableEq

def R0 : Register := ⟨0, by decide⟩
def R30 : Register := ⟨30, by decide⟩
def REG_ZERO : Register := ⟨100, by decide⟩

namespace Register

def isGpr (r : Register) : Bool := r.value ≤ R30.value

/-- The number of a general register. -/
def encoding (r : Register) : Option UInt32 := if r.isGpr then some r.value.toUInt32 else none

end Register

inductive Cond
  | EQ | NE | CS | HS | CC | LO | MI | PL | VS | VC | HI | LS | GE | LT | GT | LE
deriving DecidableEq

def Cond.u32 : Cond → UInt32
  | EQ => 0b0000
  | NE => 0b0001
  | CS | HS => 0b0010
  | CC | LO => 0b0011
  | MI => 0b0100
  | PL => 0b0101
  | VS => 0b0110
  | VC => 0b0111
  | HI => 0b1000
  | LS => 0b1001
  | GE => 0b1010
  | LT => 0b1011
  | GT => 0b1100
  | LE => 0b1101

/-! ### Words -/

def fitsBit (imm : UInt32) : Bool := imm < (1 : UInt32) <<< 1

def fitsI19 (imm : Int32) : Bool := -((1 : Int32) <<< 18) ≤ imm && imm < (1 : Int32) <<< 18

def fitsI26 (imm : Int32) : Bool := -((1 : Int32) <<< 25) ≤ imm && imm < (1 : Int32) <<< 25

def cmpBranchImm (sf op : UInt32) (rt : Register) (imm19 : Int32) : Option UInt32 :=
  if fitsBit sf ∧ fitsBit op ∧ fitsI19 imm19 ∧ rt.isGpr then do
    let imm := imm19.toUInt32 &&& 0x7FFFF
    let encoding ← rt.encoding
    some (sf <<< 31 ||| (0b011010 : UInt32) <<< 25 ||| op <<< 24 ||| imm <<< 5 ||| encoding)
  else none

def condBranchImm (cond : Cond) (imm19 : Int32) : Option UInt32 :=
  if fitsI19 imm19 then
    let imm := imm19.toUInt32 &&& 0x7FFFF
    some ((0b01010100 : UInt32) <<< 24 ||| imm <<< 5 ||| cond.u32)
  else none

def uncondBranchImm (op : UInt32) (imm26 : Int32) : Option UInt32 :=
  if fitsBit op ∧ fitsI26 imm26 then
    some ((0b101 : UInt32) <<< 26 ||| op <<< 31 ||| (imm26.toUInt32 &&& 0x3FFFFFF))
  else none

/-- The word of `brk`, with which code is filled up. -/
def brk : UInt32 := (0b11010100 : UInt32) <<< 24 ||| (0b001 : UInt32) <<< 21

/-! ### The assembler -/

inductive JumpKind
  | unconditional
  | conditional (cond : Cond)
  | nonZero (sf : Bool) (reg : Register)
  | zero (sf : Bool) (reg : Register)
deriving DecidableEq

/-- The word of a branch over a distance in words. -/
def JumpKind.inst (distance : Int32) : JumpKind → Option UInt32
  | unconditional => uncondBranchImm 0 distance
  | conditional cond => condBranchImm cond distance
  | nonZero true reg => cmpBranchImm 1 1 reg distance
  | nonZero false reg => cmpBranchImm 0 1 reg distance
  | zero true reg => cmpBranchImm 1 0 reg distance
  | zero false reg => cmpBranchImm 0 0 reg distance

structure ForwardJump where
  offset : ℕ
  label : Label
  kind : JumpKind
deriving DecidableEq

abbrev AssemblerArm64 := Assembler ForwardJump

namespace AssemblerArm64

variable (a : AssemblerArm64)

def emitU32 (value : UInt32) : Option AssemblerArm64 := a.withBuffer (a.buffer.emitU32 value)

/-- A branch to a label. The position is truncated to 32 bits, and differences are computed with
signed numbers of 32 bits. -/
def branch (kind : JumpKind) (target : Label) : Option AssemblerArm64 := do
  match ← a.buffer.offset target with
  | some targetOffset =>
    let diff : Int32 := -(Int32.ofNat a.position - Int32.ofNat targetOffset)
    if diff % 4 = 0 then
      let word ← kind.inst (diff / 4)
      a.emitU32 word
    else none
  | none =>
    let pos := a.position % 2 ^ 32
    let a ← a.emitU32 0
    some ⟨a.unresolvedJumps ++ [⟨pos, target, kind⟩], a.buffer⟩

def commonCbzCbnz (sf zero : Bool) (reg : Register) (target : Label) : Option AssemblerArm64 :=
  a.branch (if zero then .zero sf reg else .nonZero sf reg) target

/-- The word of a branch is written again. -/
def resolveJump (b : AssemblerBuffer) (jmp : ForwardJump) : Option AssemblerBuffer := do
  match ← b.offset jmp.label with
  | some lblOffset =>
    let distance : Int32 := Int32.ofNat lblOffset - Int32.ofNat jmp.offset
    if distance % 4 = 0 then
      let word ← jmp.kind.inst (distance / 4)
      (b.setPosition jmp.offset).emitU32 word
    else none
  | none => none

def resolveJumps : Option AssemblerArm64 := Assembler.resolveJumps a resolveJump

/-- The code is filled up with `brk`. -/
def alignTo (alignment : ℕ) : Option AssemblerArm64 := Assembler.alignTo a (emitU32 · brk) alignment

def finalize (alignment : Option ℕ) : Option (List UInt8) :=
  Assembler.finalize a resolveJump (emitU32 · brk) alignment

end AssemblerArm64

/-- **A call of a method.** Every instruction that is no branch to a label is a call of
`emitU32`. -/
inductive Call
  | emitU8 (value : UInt8)
  | emitU32 (value : UInt32)
  | emitU64 (value : UInt64)
  | createLabel
  | createAndBindLabel
  | bindLabel (lbl : Label)
  | bL (target : Label)
  | bcL (cond : Cond) (target : Label)
  | cbz (reg : Register) (target : Label)
  | cbzW (reg : Register) (target : Label)
  | cbnz (reg : Register) (target : Label)
  | cbnzW (reg : Register) (target : Label)
deriving DecidableEq

/-- The methods: what each of them does. -/
def AssemblerArm64.step (a : AssemblerArm64) : Call → Option AssemblerArm64
  | .emitU8 value => a.withBuffer (a.buffer.emitU8 value)
  | .emitU32 value => a.emitU32 value
  | .emitU64 value => a.withBuffer (a.buffer.emitU64 value)
  | .createLabel => some ⟨a.unresolvedJumps, a.buffer.createLabel⟩
  | .createAndBindLabel => a.withBuffer a.buffer.createAndBindLabel
  | .bindLabel lbl => a.withBuffer (a.buffer.bindLabel lbl)
  | .bL target => a.branch .unconditional target
  | .bcL cond target => a.branch (.conditional cond) target
  | .cbz reg target => a.commonCbzCbnz true true reg target
  | .cbzW reg target => a.commonCbzCbnz false true reg target
  | .cbnz reg target => a.commonCbzCbnz true false reg target
  | .cbnzW reg target => a.commonCbzCbnz false false reg target

end Dora.Asm.Arm64
