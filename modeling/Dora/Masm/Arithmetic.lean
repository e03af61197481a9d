import Dora.Masm.Arm64Arithmetic
import Dora.Masm.X64Arithmetic

/-!
# The two macro assemblers agree

A sequence of arm64 and the sequence of x64 for the same operation, run on the same operands, end
the same way.

## Main results

* `arm64_eq_x64`: both machines give the answer of the operation
* `remainder_of_min_traps`: both trap on a remainder that exists
-/

namespace Dora.Masm

open Arm64

/-- **Checked arithmetic** is the same on both machines. -/
theorem arm64_eq_x64 (op : Operation) (mode : MachineMode) (r : Operands op)
    (q : X64.Operands op) (s : State) (t : X64.State)
    (hlhs : t.read mode.bits q.lhs = s.read mode.bits r.lhs)
    (hrhs : t.read mode.bits q.rhs = s.read mode.bits r.rhs)
    (h : FormsAgree op mode (s.read 64 r.lhs) (s.read 64 r.rhs)) :
    outcome mode r s = op.answer mode.bits (s.read mode.bits r.lhs).toInt
        (s.read mode.bits r.rhs).toInt ∧
      X64.outcome mode q t = some (outcome mode r s) := by
  have harm := outcome_eq_answer r s mode h
  refine ⟨harm, ?_⟩
  rw [harm, X64.outcome_eq_answer, X64.Operands.answer, hlhs, hrhs]

namespace Arm64

open Asm.Arm64 (Register R0)

/-- `REG_RESULT`, `REG_TMP1` and the scratch registers. -/
def calls (op : Operation) : Operands op where
  dest := R0
  lhs := R0
  rhs := ⟨10, by decide⟩
  scratch := ⟨9, by decide⟩
  scratch' := ⟨12, by decide⟩
  dest_ne := by decide
  scratch_ne := by decide
  scratch_free := by decide
  rhs_ne _ := by decide

/-- The operands in the registers. -/
def start (lhs rhs : BitVec 64) : State :=
  ⟨fun r => if r = R0 then lhs else rhs, ⟨false, false, false, false⟩⟩

end Arm64

namespace X64

open Asm (Register RAX)

/-- `REG_RESULT`, `REG_TMP1` and the scratch register. -/
def calls (op : Operation) : Operands op where
  dest := RAX
  lhs := RAX
  rhs := ⟨10, by decide⟩
  scratch := ⟨7, by decide⟩
  rhs_ne_rdx _ := by decide
  rhs_ne_rax _ := by decide
  scratch_free _ := by decide

/-- The operands in the registers. -/
def start (lhs rhs : BitVec 64) : State := ⟨fun r => if r = RAX then lhs else rhs, false, false⟩

end X64

/-- A remainder of `Int64`. -/
theorem arm64_eq_x64_remainder : outcome .int64 (calls .mod) (start 17 5) = .done 2 ∧
    X64.outcome .int64 (X64.calls .mod) (X64.start 17 5) = some (.done 2) := by
  have h := arm64_eq_x64 .mod .int64 (calls .mod) (X64.calls .mod) (start 17 5) (X64.start 17 5)
    (by decide) (by decide) (fun _ => by decide)
  have hanswer : Operation.answer .mod 64 17 5 = .done 2 := by decide
  exact ⟨h.1.trans hanswer, h.2.trans (congrArg some (h.1.trans hanswer))⟩

-- The form of `msub` cuts a remainder of `Int64`: here it is minus one.
example : outcome .int64 (calls .mod) (start (-7) 3) = .done (2 ^ 32 - 1) := by
  decide +kernel

/-- A remainder that exists, of a division that overflows. -/
theorem remainder_of_min_traps :
    Operation.mathematical .mod 32 (-2 ^ 31) (-1) = .done 0 ∧
      outcome .int32 (calls .mod) (start 0x80000000 0xFFFFFFFF) = .trap .OVERFLOW ∧
      X64.outcome .int32 (X64.calls .mod) (X64.start 0x80000000 0xFFFFFFFF) =
        some (.trap .OVERFLOW) := by
  decide +kernel

end Dora.Masm
