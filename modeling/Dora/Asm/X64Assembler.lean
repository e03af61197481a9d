import Dora.Asm.Buffer

/-!
# Jumps and labels of the x64 assembler

A jump to a label that is bound already is emitted with its distance, in the short form if that
fits; any other jump gets a field of one or four bytes, which is filled in by `finalize`.

## Main definitions

* `ForwardJump`: a field that is still to be filled in
* `AssemblerX64.step`: the calls of `AssemblerX64`
-/

namespace Dora.Asm

open Emission

inductive JumpDistance
  | near
  | far
deriving DecidableEq

/-- A jump whose displacement is missing; `offset` is where its field starts. -/
structure ForwardJump where
  offset : ℕ
  label : Label
  distance : JumpDistance
deriving DecidableEq

abbrev AssemblerX64 := Assembler ForwardJump

namespace AssemblerX64

variable (a : AssemblerX64)

def emit (e : Emission) : Option AssemblerX64 := a.withBuffer (a.buffer.emit e)

def pushJump (target : Label) (distance : JumpDistance) : Option AssemblerX64 := do
  let offset ← toU32 a.position
  some { a with unresolvedJumps := a.unresolvedJumps ++ [⟨offset, target, distance⟩] }

/-- A jump in the short form or, where that does not fit or the label is not bound, in the far form,
which takes `farSize` bytes. -/
def jumpTo (short far : List UInt8) (farSize : ℕ) (target : Label) : Option AssemblerX64 := do
  match ← a.buffer.offset target with
  | some targetOffset =>
    -- backwards: the instruction pointer is at the end of this instruction
    if targetOffset ≤ a.position then
      let distance : ℤ := -((a.position + 2 - targetOffset : ℕ) : ℤ)
      if distance ≤ -2 then
        if distance ≥ -128 then
          a.emit (bytes short ++ emitU8 (UInt8.ofInt distance))
        else
          let distance : ℤ := -((a.position + farSize - targetOffset : ℕ) : ℤ)
          a.emit (bytes far ++ emitU32 (UInt32.ofInt distance))
      else none
    else none
  | none =>
    let a ← a.emit (bytes far)
    let a ← a.pushJump target .far
    a.emit (emitU32 0)

/-- A jump in the short form. -/
def jumpNearTo (short : List UInt8) (target : Label) : Option AssemblerX64 := do
  match ← a.buffer.offset target with
  | some targetOffset =>
    if targetOffset ≤ a.position then
      let distance : ℤ := -((a.position + 2 - targetOffset : ℕ) : ℤ)
      if -128 ≤ distance ∧ distance ≤ -2 then
        a.emit (bytes short ++ emitU8 (UInt8.ofInt distance))
      else none
    else none
  | none =>
    let a ← a.emit (bytes short)
    let a ← a.pushJump target .near
    a.emit (emitU8 0)

/-- The displacement of a jump is filled in. -/
def resolveJump (b : AssemblerBuffer) (jump : ForwardJump) : Option AssemblerBuffer := do
  match ← b.offset jump.label with
  | none => none
  | some lblOffset =>
    let b := b.setPosition jump.offset
    match jump.distance with
    | .near =>
      let distance : Int32 := Int32.ofNat lblOffset - (Int32.ofNat jump.offset + 1)
      if -128 ≤ distance ∧ distance < 128 then b.emitU8 distance.toUInt32.toUInt8 else none
    | .far =>
      let distance : Int32 := Int32.ofNat lblOffset - (Int32.ofNat jump.offset + 4)
      b.emitU32 distance.toUInt32

def resolveJumps : Option AssemblerX64 := Assembler.resolveJumps a resolveJump

/-- The code is filled up with `int3`. -/
def alignTo (alignment : ℕ) : Option AssemblerX64 :=
  Assembler.alignTo a (emit · Inst.int3.emit) alignment

def finalize (alignment : Option ℕ) : Option (List UInt8) :=
  Assembler.finalize a resolveJump (emit · Inst.int3.emit) alignment

end AssemblerX64

/-- **A call of a method.** -/
inductive Call
  | inst (inst : Inst)
  | mem (inst : MemInst) (form : AddressForm)
  | emitU8 (value : UInt8)
  | emitU32 (value : UInt32)
  | emitU64 (value : UInt64)
  | createLabel
  | createAndBindLabel
  | bindLabel (lbl : Label)
  | jcc (condition : Condition) (target : Label)
  | jccNear (condition : Condition) (target : Label)
  | jmp (target : Label)
  | jmpNear (target : Label)
deriving DecidableEq

/-- The methods: what each of them does. -/
def AssemblerX64.step (a : AssemblerX64) : Call → Option AssemblerX64
  | .inst inst => a.emit inst.emit
  | .mem inst form => a.emit (inst.emitWith form)
  | .emitU8 value => a.withBuffer (a.buffer.emitU8 value)
  | .emitU32 value => a.withBuffer (a.buffer.emitU32 value)
  | .emitU64 value => a.withBuffer (a.buffer.emitU64 value)
  | .createLabel => some { a with buffer := a.buffer.createLabel }
  | .createAndBindLabel => a.withBuffer a.buffer.createAndBindLabel
  | .bindLabel lbl => a.withBuffer (a.buffer.bindLabel lbl)
  | .jcc condition target => a.jumpTo [0x70 + condition.int] [0x0F, 0x80 + condition.int] 6 target
  | .jccNear condition target => a.jumpNearTo [0x70 + condition.int] target
  | .jmp target => a.jumpTo [0xEB] [0xE9] 5 target
  | .jmpNear target => a.jumpNearTo [0xEB] target

end Dora.Asm
