import Mathlib.Algebra.Group.Int.Defs
import Mathlib.Algebra.Group.Nat.Defs

/-!
# The format of x64 instructions

An instruction with a memory operand in 64-bit mode, by the rules of the instruction set manual. The
low three bits of a register number stand in ModRM or SIB, the fourth one in REX. Some values of the
low bits are escapes: `rm = 100` announces a SIB byte, `rm = 101` without displacement is relative
to the instruction pointer, an index of `0100` is no index, and a base of `101` without displacement
is no base.

## Main definitions

* `X64.decode`, `X64.decodeMem`, `X64.decodeJump`: decoding

## Main results

* `X64.decode_append`: prefixes, REX and the opcode are found again
-/

namespace X64

/-- A number in little-endian order. -/
def leNat : List UInt8 → ℕ
  | [] => 0
  | b :: bs => b.toNat + 256 * leNat bs

/-- The two's complement number of the given width. -/
def signed (bits n : ℕ) : ℤ := if n < 2 ^ (bits - 1) then n else n - 2 ^ bits

/-- The bits of a REX prefix: 64-bit width, and the fourth bits of the numbers of the register, the
index and the base. -/
structure Rex where
  w : Bool
  r : Bool
  x : Bool
  b : Bool
deriving DecidableEq

namespace Rex

def ofByte (byte : UInt8) : Option Rex :=
  if byte.toNat / 16 = 4 then
    some ⟨byte.toNat / 8 % 2 = 1, byte.toNat / 4 % 2 = 1, byte.toNat / 2 % 2 = 1,
      byte.toNat % 2 = 1⟩
  else none

/-- Without a prefix no bit is set. -/
def none : Rex := ⟨false, false, false, false⟩

def toByte (rex : Rex) : UInt8 :=
  0x40 + (if rex.w then 8 else 0) + (if rex.r then 4 else 0) + (if rex.x then 2 else 0) +
    if rex.b then 1 else 0

theorem ofByte_toByte (rex : Rex) : ofByte rex.toByte = some rex := by
  obtain ⟨w, r, x, b⟩ := rex
  cases w <;> cases r <;> cases x <;> cases b <;> rfl

end Rex

/-- The number of a register with the given low bits and fourth bit. -/
def regNumber (fourth : Bool) (low : ℕ) : ℕ := low + if fourth then 8 else 0

/-- What an address is relative to. -/
inductive Base
  | none
  | rip
  | reg (n : ℕ)
deriving DecidableEq

/-- A memory operand: a base, an index with a scale factor, and a displacement. -/
structure MemOperand where
  base : Base
  index : Option (ℕ × ℕ)
  disp : ℤ
deriving DecidableEq

/-- A displacement of the given number of bytes. -/
def readDisp (size : ℕ) (bytes : List UInt8) : Option (ℤ × List UInt8) :=
  if size ≤ bytes.length then
    some (signed (8 * size) (leNat (bytes.take size)), bytes.drop size)
  else none

/-- The size of the displacement by the mode. -/
def dispSize (mode : ℕ) : ℕ := if mode = 1 then 1 else if mode = 2 then 4 else 0

/-- The memory operand of a ModRM byte, and the bytes behind it. Mode 3 is a register. -/
def decodeMem (rex : Rex) (mode rm : ℕ) (bytes : List UInt8) : Option (MemOperand × List UInt8) :=
  if mode = 3 then none
  else if rm = 4 then
    match bytes with
    | [] => none
    | sib :: bytes =>
      let number := regNumber rex.x (sib.toNat / 8 % 8)
      let index := if number = 4 then none else some (number, 2 ^ (sib.toNat / 64))
      if mode = 0 ∧ sib.toNat % 8 = 5 then
        (readDisp 4 bytes).map fun p => (⟨.none, index, p.1⟩, p.2)
      else
        (readDisp (dispSize mode) bytes).map fun p =>
          (⟨.reg (regNumber rex.b (sib.toNat % 8)), index, p.1⟩, p.2)
  else if mode = 0 ∧ rm = 5 then
    (readDisp 4 bytes).map fun p => (⟨.rip, none, p.1⟩, p.2)
  else
    (readDisp (dispSize mode) bytes).map fun p => (⟨.reg (regNumber rex.b rm), none, p.1⟩, p.2)

/-- An instruction with a memory operand. `reg` is the number of the register operand, or the digit
that extends the opcode; `high` says that the register is one of AH, CH, DH and BH. -/
structure Insn where
  prefixes : List UInt8
  w : Bool
  opcode : List UInt8
  reg : ℕ
  high : Bool
  mem : MemOperand
  imm : List UInt8
deriving DecidableEq

/-- The legacy prefixes that are used: LOCK, REPNE, REP and the operand size. -/
def isLegacy (b : UInt8) : Bool := b = 0xF0 ∨ b = 0xF2 ∨ b = 0xF3 ∨ b = 0x66

def takePrefixes : List UInt8 → List UInt8 × List UInt8
  | [] => ([], [])
  | b :: bytes =>
    if isLegacy b then
      (b :: (takePrefixes bytes).1, (takePrefixes bytes).2)
    else ([], b :: bytes)

/-- A REX prefix, if there is one. -/
def takeRex (bytes : List UInt8) : Option Rex × List UInt8 :=
  match bytes with
  | [] => (none, [])
  | b :: rest =>
    match Rex.ofByte b with
    | some rex => (some rex, rest)
    | none => (none, bytes)

/-- An opcode of one, two or three bytes. -/
def takeOpcode (bytes : List UInt8) : Option (List UInt8 × List UInt8) :=
  match bytes with
  | [] => none
  | b :: rest =>
    if b = 0x0F then
      match rest with
      | [] => none
      | c :: rest =>
        if c = 0x38 ∨ c = 0x3A then
          match rest with
          | [] => none
          | d :: rest => some ([b, c, d], rest)
        else some ([b, c], rest)
    else some ([b], rest)

/-- The register operand has 8 bits. -/
def isByteReg (opcode : List UInt8) : Bool :=
  opcode ∈ ([[0x00], [0x02], [0x08], [0x0A], [0x10], [0x12], [0x18], [0x1A], [0x20], [0x22], [0x28],
    [0x2A], [0x30], [0x32], [0x38], [0x3A], [0x84], [0x86], [0x88], [0x8A], [0x0F, 0xB0],
    [0x0F, 0xC0]] : List (List UInt8))

/-- The size of the immediate, for operands of 8, 32 and 64 bits. -/
def immSize (opcode : List UInt8) (digit : ℕ) : ℕ :=
  if opcode = [0x80] ∨ opcode = [0x83] ∨ opcode = [0xC0] ∨ opcode = [0xC1] ∨ opcode = [0xC6] ∨
      opcode = [0x6B] ∨ opcode.take 2 = [0x0F, 0x3A] ∨ opcode = [0xF6] ∧ digit < 2 then 1
  else if opcode = [0x81] ∨ opcode = [0xC7] ∨ opcode = [0x69] ∨ opcode = [0xF7] ∧ digit < 2 then 4
  else 0

/-- **Decoding**: all bytes are consumed. -/
def decode (bytes : List UInt8) : Option Insn := do
  let (prefixes, bytes) := takePrefixes bytes
  let (rex, bytes) := takeRex bytes
  let bits := rex.getD .none
  let (opcode, bytes) ← takeOpcode bytes
  match bytes with
  | [] => none
  | modrm :: bytes =>
    let digit := modrm.toNat / 8 % 8
    let (mem, imm) ← decodeMem bits (modrm.toNat / 64) (modrm.toNat % 8) bytes
    if imm.length = immSize opcode digit then
      some {
        prefixes
        w := bits.w
        opcode
        reg := regNumber bits.r digit
        high := isByteReg opcode && rex.isNone && decide (4 ≤ digit)
        mem
        imm }
    else none

/-! ### Relative jumps -/

inductive JumpKind
  | jmp
  | jcc (condition : ℕ)
deriving DecidableEq

/-- A relative jump: the displacement is added to the address of the next instruction. -/
structure Jump where
  kind : JumpKind
  opcodeSize : ℕ
  disp : ℤ
deriving DecidableEq

/-- A displacement of the given size and nothing else. -/
def jumpDisp (kind : JumpKind) (opcodeSize size : ℕ) (bytes : List UInt8) : Option Jump :=
  if bytes.length = size then some ⟨kind, opcodeSize, signed (8 * size) (leNat bytes)⟩ else none

/-- The relative jumps with 8 and with 32 bits. -/
def decodeJump (bytes : List UInt8) : Option Jump :=
  match bytes with
  | [] => none
  | b :: rest =>
    if b = 0xEB then jumpDisp .jmp 1 1 rest
    else if b = 0xE9 then jumpDisp .jmp 1 4 rest
    else if b.toNat / 16 = 7 then jumpDisp (.jcc (b.toNat % 16)) 1 1 rest
    else if b = 0x0F then
      match rest with
      | [] => none
      | c :: rest =>
        if c.toNat / 16 = 8 then jumpDisp (.jcc (c.toNat % 16)) 2 4 rest else none
    else none

/-! ### What is taken -/

variable {bytes opcode prefixes : List UInt8}

theorem readDisp_length {size : ℕ} {p : ℤ × List UInt8} (h : readDisp size bytes = some p) :
    p.2.length + size = bytes.length := by
  rw [readDisp] at h
  by_cases hs : size ≤ bytes.length
  · rw [if_pos hs] at h
    cases h
    rw [List.length_drop]
    omega
  · rw [if_neg hs] at h
    cases h

/-- With a SIB byte at least this byte and the displacement are taken. -/
theorem decodeMem_sib_length {rex : Rex} {mode : ℕ} {p : MemOperand × List UInt8}
    (h : decodeMem rex mode 4 bytes = some p) :
    p.2.length + 1 + dispSize mode ≤ bytes.length := by
  rw [decodeMem.eq_def] at h
  by_cases hm : mode = 3
  · rw [if_pos hm] at h
    cases h
  rw [if_neg hm, if_pos rfl] at h
  cases bytes with
  | nil => cases h
  | cons sib bytes =>
    rw [List.length_cons]
    dsimp only at h
    by_cases hb : mode = 0 ∧ sib.toNat % 8 = 5
    · rw [if_pos hb] at h
      obtain ⟨q, hq, rfl⟩ := Option.map_eq_some_iff.mp h
      have hlen := readDisp_length hq
      have hsize : dispSize mode = 0 := by rw [hb.1]; rfl
      dsimp only
      omega
    · rw [if_neg hb] at h
      obtain ⟨q, hq, rfl⟩ := Option.map_eq_some_iff.mp h
      have hlen := readDisp_length hq
      dsimp only
      omega

/-! ### Decoding what is put together -/

/-- An opcode of one byte, or of two bytes with the escape byte, that no prefix is taken for. -/
def isOpcode (opcode : List UInt8) : Bool :=
  match opcode with
  | [b] => b ≠ 0x0F ∧ ¬ isLegacy b ∧ Rex.ofByte b = none
  | [b, c] => b = 0x0F ∧ c ≠ 0x38 ∧ c ≠ 0x3A
  | _ => false

theorem isOpcode_head (h : isOpcode opcode) :
    ∃ b rest, opcode = b :: rest ∧ isLegacy b = false ∧ Rex.ofByte b = none := by
  match opcode, h with
  | [b], h =>
    obtain ⟨-, hl, hr⟩ := of_decide_eq_true h
    exact ⟨b, [], rfl, Bool.eq_false_iff.mpr hl, hr⟩
  | [b, c], h =>
    obtain ⟨rfl, -⟩ := of_decide_eq_true h
    exact ⟨0x0F, [c], rfl, by decide, by decide⟩

theorem takeOpcode_append (h : isOpcode opcode) (bytes : List UInt8) :
    takeOpcode (opcode ++ bytes) = some (opcode, bytes) := by
  match opcode, h with
  | [b], h =>
    obtain ⟨h0, -⟩ := of_decide_eq_true h
    simp [takeOpcode, h0]
  | [b, c], h =>
    obtain ⟨rfl, h38, h3a⟩ := of_decide_eq_true h
    simp [takeOpcode, h38, h3a]

theorem takePrefixes_append (h : ∀ b ∈ prefixes, isLegacy b) {b : UInt8} (hb : isLegacy b = false)
    (bytes : List UInt8) :
    takePrefixes (prefixes ++ b :: bytes) = (prefixes, b :: bytes) := by
  induction prefixes with
  | nil => simp [takePrefixes, hb]
  | cons p ps ih =>
    have hp : isLegacy p := h p List.mem_cons_self
    rw [List.cons_append, takePrefixes, if_pos hp, ih fun q hq => h q (List.mem_cons_of_mem _ hq)]

theorem Rex.isLegacy_toByte (rex : Rex) : isLegacy rex.toByte = false := by
  obtain ⟨w, r, x, b⟩ := rex
  cases w <;> cases r <;> cases x <;> cases b <;> rfl

/-- The bytes of an optional REX prefix. -/
def rexBytes (rex : Option Rex) : List UInt8 := (rex.map Rex.toByte).toList

/-- **Decoding of an encoding**: prefixes, REX and the opcode are found again, and the rest is the
memory operand with the immediate behind it. -/
theorem decode_append (hp : ∀ b ∈ prefixes, isLegacy b) (rex : Option Rex) (hop : isOpcode opcode)
    (modrm : UInt8) (bytes : List UInt8) :
    decode (prefixes ++ (rexBytes rex ++ (opcode ++ modrm :: bytes))) =
      (decodeMem (rex.getD .none) (modrm.toNat / 64) (modrm.toNat % 8) bytes).bind fun p =>
        if p.2.length = immSize opcode (modrm.toNat / 8 % 8) then
          some {
            prefixes
            w := (rex.getD .none).w
            opcode
            reg := regNumber (rex.getD .none).r (modrm.toNat / 8 % 8)
            high := isByteReg opcode && rex.isNone && decide (4 ≤ modrm.toNat / 8 % 8)
            mem := p.1
            imm := p.2 }
        else none := by
  have hrex : takePrefixes (prefixes ++ (rexBytes rex ++ (opcode ++ modrm :: bytes))) =
        (prefixes, rexBytes rex ++ (opcode ++ modrm :: bytes)) ∧
      takeRex (rexBytes rex ++ (opcode ++ modrm :: bytes)) = (rex, opcode ++ modrm :: bytes) := by
    obtain ⟨b, rest, hopcode, hl, hr⟩ := isOpcode_head hop
    cases rex with
    | none =>
      rw [hopcode]
      refine ⟨takePrefixes_append hp hl _, ?_⟩
      simp [rexBytes, takeRex, hr]
    | some rex =>
      refine ⟨takePrefixes_append hp rex.isLegacy_toByte _, ?_⟩
      simp [rexBytes, takeRex, Rex.ofByte_toByte]
  simp only [decode, hrex.1, hrex.2, takeOpcode_append hop]
  rfl

/-- An encoding is decoded as intended exactly if its memory operand is. -/
theorem decode_eq_some_iff (hp : ∀ b ∈ prefixes, isLegacy b) {rex : Option Rex}
    (hop : isOpcode opcode) {modrm : UInt8} {insn : Insn}
    (hinsn : insn.prefixes = prefixes ∧ insn.w = (rex.getD .none).w ∧ insn.opcode = opcode ∧
      insn.high = (isByteReg opcode && rex.isNone && decide (4 ≤ modrm.toNat / 8 % 8)))
    (himm : insn.imm.length = immSize opcode (modrm.toNat / 8 % 8)) :
    decode (prefixes ++ (rexBytes rex ++ (opcode ++ modrm :: bytes))) = some insn ↔
      insn.reg = regNumber (rex.getD .none).r (modrm.toNat / 8 % 8) ∧
      decodeMem (rex.getD .none) (modrm.toNat / 64) (modrm.toNat % 8) bytes =
        some (insn.mem, insn.imm) := by
  obtain ⟨h1, h2, h3, h4⟩ := hinsn
  rw [decode_append hp rex hop]
  constructor
  · intro h
    obtain ⟨p, hmem, h⟩ := Option.bind_eq_some_iff.mp h
    by_cases hlen : p.2.length = immSize opcode (modrm.toNat / 8 % 8)
    · rw [if_pos hlen] at h
      cases h
      exact ⟨rfl, hmem⟩
    · rw [if_neg hlen] at h
      cases h
  · rintro ⟨hreg, hmem⟩
    rw [hmem, Option.bind_some, if_pos himm, ← h1, ← h2, ← h4, ← hreg, ← h3]

end X64
