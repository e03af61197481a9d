import Dora.Asm.X64
import Dora.Masm.Checked

/-!
# Integer arithmetic of the x64 macro assembler

Of the flags only the two that the sequences test are kept.

## Main definitions

* `exec`: the meaning of the instructions
* `intDiv`, `intMulChecked`, `intAddChecked`: the sequences of `MacroAssembler`
-/

namespace Dora.Masm.X64

open Asm (Register Condition Immediate Inst RAX)

def RDX : Register := ⟨2, by decide⟩

/-! ## Meaning -/

structure State where
  regs : Register → BitVec 64
  zf : Bool
  of : Bool

namespace State

variable (s : State) (w : ℕ)

/-- The low `w` bits of a register. -/
def read (r : Register) : BitVec w := Registers.read s.regs w r

/-- A register is written; a write of 32 bits clears those above. -/
def write (r : Register) (x : BitVec w) : State := ⟨Registers.write s.regs r x, s.zf, s.of⟩

end State

/-- The flags after an operation, from its result and the exact value. -/
def setFlags {w : ℕ} (s : State) (result : BitVec w) (exact : ℤ) : State :=
  ⟨s.regs, result = 0, result.toInt ≠ exact⟩

section Width

variable (w : ℕ) (s : State)

def execAdd (dest src : Register) : State :=
  let result := s.read w dest + s.read w src
  (setFlags s result ((s.read w dest).toInt + (s.read w src).toInt)).write w dest result

def execSub (dest src : Register) : State :=
  let result := s.read w dest - s.read w src
  (setFlags s result ((s.read w dest).toInt - (s.read w src).toInt)).write w dest result

/-- The zero flag, which is undefined after a multiplication, is not tested there. -/
def execImul (dest src : Register) : State :=
  let result := s.read w dest * s.read w src
  (setFlags s result ((s.read w dest).toInt * (s.read w src).toInt)).write w dest result

def execCmp (x y : BitVec w) : State := setFlags s (x - y) (x.toInt - y.toInt)

/-- The overflow flag is cleared. -/
def execTest (lhs rhs : Register) : State :=
  let result := s.read w lhs &&& s.read w rhs
  setFlags s result result.toInt

/-- The sign of the accumulator is spread over the data register. -/
def execConvert : State := s.write w RDX ((s.read w RAX).sshiftRight (w - 1))

/-- The number in the data register and the accumulator. -/
def dividend : ℤ := (s.read w RDX).toInt * 2 ^ w + (s.read w RAX).toNat

/-- A division by zero, or one whose quotient is too large, faults. -/
def execIdiv (src : Register) : Option State :=
  let divisor := (s.read w src).toInt
  let quotient := (dividend w s).tdiv divisor
  if divisor = 0 ∨ quotient < -2 ^ (w - 1) ∨ 2 ^ (w - 1) ≤ quotient then none
  else some ((s.write w RAX (BitVec.ofInt w quotient)).write w RDX
    (BitVec.ofInt w ((dividend w s).tmod divisor)))

end Width

/-- **The meaning of an instruction.** Instructions that are not used have none. -/
def exec (i : Inst) (s : State) : Option State :=
  match i with
  | .movqRr dest src => some (s.write 64 dest (s.read 64 src))
  | .movlRr dest src => some (s.write 32 dest (s.read 32 src))
  | .movqRi dest imm => some (s.write 64 dest imm.value.toBitVec)
  | .movlRi dest imm => some (s.write 32 dest (imm.value.toBitVec.setWidth 32))
  | .addqRr dest src => some (execAdd 64 s dest src)
  | .addlRr dest src => some (execAdd 32 s dest src)
  | .subqRr dest src => some (execSub 64 s dest src)
  | .sublRr dest src => some (execSub 32 s dest src)
  | .imulqRr dest src => some (execImul 64 s dest src)
  | .imullRr dest src => some (execImul 32 s dest src)
  | .cmpqRr lhs rhs => some (execCmp 64 s (s.read 64 lhs) (s.read 64 rhs))
  | .cmplRr lhs rhs => some (execCmp 32 s (s.read 32 lhs) (s.read 32 rhs))
  | .cmpqRi reg imm => some (execCmp 64 s (s.read 64 reg) imm.value.toBitVec)
  | .cmplRi reg imm => some (execCmp 32 s (s.read 32 reg) (imm.value.toBitVec.setWidth 32))
  | .testqRr lhs rhs => some (execTest 64 s lhs rhs)
  | .testlRr lhs rhs => some (execTest 32 s lhs rhs)
  | .cqo => some (execConvert 64 s)
  | .cdq => some (execConvert 32 s)
  | .idivqR reg => execIdiv 64 s reg
  | .idivlR reg => execIdiv 32 s reg
  | _ => none

/-- The condition of a jump, where it needs no other flag. -/
def test (cond : Condition) (s : State) : Option Bool :=
  match cond with
  | .overflow => some s.of
  | .noOverflow => some !s.of
  | .equal | .zero => some s.zf
  | .notEqual | .notZero => some !s.zf
  | _ => none

/-! ## Sequences -/

abbrev Code := List (Item Inst Condition Lbl Trap)

def run (code : Code) (s : State) : Exit State Trap := Listing.run exec test code s

variable (mode : MachineMode)

def movRr (dest src : Register) : Item Inst Condition Lbl Trap :=
  match mode with
  | .int64 => .op (.movqRr dest src)
  | .int32 => .op (.movlRr dest src)

/-- `div_common`, with the scratch register that it gets. -/
def divCommon (dest lhs rhs result scratch : Register) : Option Code :=
  -- The assertion of the source.
  if lhs ≠ RAX ∧ rhs = RAX then none
  else some <|
    (match mode with
      | .int64 => [.op (.testqRr rhs rhs)]
      | .int32 => [.op (.testlRr rhs rhs)]) ++
    [.branch .zero .zero, .bailout .zero .DIV0] ++
    (match mode with
      | .int64 => [.op (.movqRi scratch ⟨Int64.minValue⟩), .op (.cmpqRr scratch lhs),
          .branch .notEqual .div, .op (.cmpqRi rhs ⟨-1⟩)]
      | .int32 => [.op (.movlRi scratch ⟨Int32.minValue.toInt64⟩), .op (.cmplRr scratch lhs),
          .branch .notEqual .div, .op (.cmplRi rhs ⟨-1⟩)]) ++
    [.branch .equal .overflow, .bailout .overflow .OVERFLOW, .bind .div] ++
    (if lhs ≠ RAX then [movRr mode RAX lhs] else []) ++
    (match mode with
      | .int64 => [.op .cqo, .op (.idivqR rhs)]
      | .int32 => [.op .cdq, .op (.idivlR rhs)]) ++
    (if dest ≠ result then [movRr mode dest result] else []) ++
    [.bind .done]

def intDiv (dest lhs rhs scratch : Register) : Option Code :=
  divCommon mode dest lhs rhs RAX scratch

def intMod (dest lhs rhs scratch : Register) : Option Code :=
  divCommon mode dest lhs rhs RDX scratch

/-- What follows the instruction in the checked operations. -/
def checked (dest lhs : Register) (op : Inst) : Code :=
  [.op op, .branch .overflow .overflow, .bailout .overflow .OVERFLOW] ++
    (if dest ≠ lhs then [movRr mode dest lhs] else [])

def intMulChecked (dest lhs rhs : Register) : Code :=
  match mode with
  | .int64 => checked mode dest lhs (.imulqRr lhs rhs)
  | .int32 => checked mode dest lhs (.imullRr lhs rhs)

def intAddChecked (dest lhs rhs : Register) : Code :=
  match mode with
  | .int64 => checked mode dest lhs (.addqRr lhs rhs)
  | .int32 => checked mode dest lhs (.addlRr lhs rhs)

def intSubChecked (dest lhs rhs : Register) : Code :=
  match mode with
  | .int64 => checked mode dest lhs (.subqRr lhs rhs)
  | .int32 => checked mode dest lhs (.sublRr lhs rhs)

end Dora.Masm.X64
