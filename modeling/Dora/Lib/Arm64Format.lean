import Dora.Lib.X64Format

/-!
# The format of arm64 branches

Decoding of branches to an immediate offset, by the rules of the instruction set manual. The offset
is a signed number of words, of 26 bits in `B` and of 19 bits in `B.cond`, `CBZ` and `CBNZ`.

## Main results

* `A64.decodeBranch_word`: the word of a branch is decoded with its fields
-/

namespace A64

open X64 (signed)

/-- The fields of a branch other than its offset: a condition, or a register of 64 or 32 bits that
is compared with zero. -/
inductive BranchKind
  | b
  | bcond (cond : ℕ)
  | cbz (sf : Bool) (rt : ℕ)
  | cbnz (sf : Bool) (rt : ℕ)
deriving DecidableEq

namespace BranchKind

/-- The width of the offset. -/
def bits : BranchKind → ℕ
  | b => 26
  | bcond _ | cbz _ _ | cbnz _ _ => 19

/-- The fields have the size that they have in the word. -/
def Valid : BranchKind → Prop
  | b => True
  | bcond cond => cond < 2 ^ 4
  | cbz _ rt | cbnz _ rt => rt < 2 ^ 5

def sfBit (sf : Bool) : ℕ := if sf then 2 ^ 31 else 0

/-- The word of a branch with the given offset field. -/
def word (imm : ℕ) : BranchKind → ℕ
  | b => 0b000101 * 2 ^ 26 + imm
  | bcond cond => 0b01010100 * 2 ^ 24 + imm * 2 ^ 5 + cond
  | cbz sf rt => sfBit sf + 0b011010 * 2 ^ 25 + imm * 2 ^ 5 + rt
  | cbnz sf rt => sfBit sf + 0b011010 * 2 ^ 25 + 2 ^ 24 + imm * 2 ^ 5 + rt

end BranchKind

/-- A branch with its offset in words. -/
structure Branch where
  kind : BranchKind
  offset : ℤ
deriving DecidableEq

def decodeBranch (w : ℕ) : Option Branch :=
  if w / 2 ^ 26 = 0b000101 then some ⟨.b, signed 26 (w % 2 ^ 26)⟩
  else if w / 2 ^ 24 = 0b01010100 ∧ w / 2 ^ 4 % 2 = 0 then
    some ⟨.bcond (w % 2 ^ 4), signed 19 (w / 2 ^ 5 % 2 ^ 19)⟩
  else if w / 2 ^ 25 % 2 ^ 6 = 0b011010 then
    if w / 2 ^ 24 % 2 = 0 then
      some ⟨.cbz (w / 2 ^ 31 % 2 = 1) (w % 2 ^ 5), signed 19 (w / 2 ^ 5 % 2 ^ 19)⟩
    else some ⟨.cbnz (w / 2 ^ 31 % 2 = 1) (w % 2 ^ 5), signed 19 (w / 2 ^ 5 % 2 ^ 19)⟩
  else none

/-- **Round trip**: the word of a branch is decoded with its fields. -/
theorem decodeBranch_word {kind : BranchKind} (h : kind.Valid) {imm : ℕ}
    (himm : imm < 2 ^ kind.bits) :
    decodeBranch (kind.word imm) = some ⟨kind, signed kind.bits imm⟩ := by
  cases kind with
  | b =>
    simp only [BranchKind.bits] at himm
    rw [decodeBranch, BranchKind.word, if_pos (by omega), BranchKind.bits]
    congr 3
    omega
  | bcond cond =>
    simp only [BranchKind.bits, BranchKind.Valid] at himm h
    rw [decodeBranch, BranchKind.word, if_neg (by omega), if_pos (by omega), BranchKind.bits]
    congr 3 <;> omega
  | cbz sf rt =>
    simp only [BranchKind.bits, BranchKind.Valid] at himm h
    cases sf with
    | false | true =>
      rw [decodeBranch, BranchKind.word, BranchKind.sfBit, if_neg (by simp; omega),
        if_neg (by simp; omega), if_pos (by simp; omega), if_pos (by simp; omega), BranchKind.bits]
      congr 3 <;> simp <;> omega
  | cbnz sf rt =>
    simp only [BranchKind.bits, BranchKind.Valid] at himm h
    cases sf with
    | false | true =>
      rw [decodeBranch, BranchKind.word, BranchKind.sfBit, if_neg (by simp; omega),
        if_neg (by simp; omega), if_pos (by simp; omega), if_neg (by simp; omega), BranchKind.bits]
      congr 3 <;> simp <;> omega

end A64
