import Dora.Asm.X64
import Dora.Lib.Fixups
import Dora.Lib.Loop

/-!
# The code buffer of the assemblers

As long as the position of the buffer is not set, it is the end of the code, and writing appends;
the position is set only while jumps are resolved, where bytes are overwritten.

## Main definitions

* `AssemblerBuffer`: the code, the position at which is written, and the labels
* `Assembler`: a buffer with the jumps that are not resolved, for either architecture
* `Assembler.view`: an assembler as code with labels and fixups

## Main results

* `AssemblerBuffer.write_end`, `AssemblerBuffer.write_within`: writing appends or patches
* `Assembler.resolveJumps_eq`: resolving the jumps fills in the fields of all fixups
-/

namespace Dora.Asm

open Fixups

/-- A label is an index. -/
abbrev Label := ℕ

structure AssemblerBuffer where
  code : List UInt8
  position : ℕ
  labels : List (Option ℕ)
deriving DecidableEq

/-- Offsets are stored as numbers of 32 bits. -/
def toU32 (n : ℕ) : Option ℕ := if n < 2 ^ 32 then some n else none

namespace AssemblerBuffer

def new : AssemblerBuffer := ⟨[], 0, []⟩

variable (b : AssemblerBuffer)

def createLabel : AssemblerBuffer := { b with labels := b.labels ++ [none] }

def createAndBindLabel : Option AssemblerBuffer := do
  let offset ← toU32 b.position
  some { b with labels := b.labels ++ [some offset] }

def bindLabel (lbl : Label) : Option AssemblerBuffer :=
  match b.labels[lbl]? with
  | some none => do
    let offset ← toU32 b.position
    some { b with labels := b.labels.set lbl (some offset) }
  | _ => none

/-- The position of a label; there has to be such a label. -/
def offset (lbl : Label) : Option (Option ℕ) := b.labels[lbl]?

def setPosition (pos : ℕ) : AssemblerBuffer := { b with position := pos }

/-- Writing at the position: at the end the bytes are pushed, otherwise they replace others, which
have to be there. -/
def write (bytes : List UInt8) : Option AssemblerBuffer :=
  if b.position = b.code.length then
    some { b with code := b.code ++ bytes, position := b.position + bytes.length }
  else if b.position + bytes.length ≤ b.code.length then
    some { b with code := patch b.code b.position bytes, position := b.position + bytes.length }
  else none

def emitU8 (value : UInt8) : Option AssemblerBuffer := b.write [value]

def emitU32 (value : UInt32) : Option AssemblerBuffer := b.write (le32 value)

def emitU64 (value : UInt64) : Option AssemblerBuffer := b.write (le64 value)

/-- What an instruction appends. -/
def emit (e : Emission) : Option AssemblerBuffer :=
  match e with
  | none => none
  | some bytes => b.write bytes

/-- The code and the labels. -/
def view : List UInt8 × List (Option ℕ) := (b.code, b.labels)

variable {b} {bytes : List UInt8}

theorem write_end (h : b.position = b.code.length) :
    b.write bytes =
      some { b with code := b.code ++ bytes, position := (b.code ++ bytes).length } := by
  rw [write, if_pos h, h, List.length_append]

/-- Writing within the code is patching it. -/
theorem write_within (bytes : List UInt8) {start : ℕ} (hpos : 0 < bytes.length)
    (h : start + bytes.length ≤ b.code.length) :
    ((b.setPosition start).write bytes).map view = some (patch b.code start bytes, b.labels) := by
  have hne : ¬ start = b.code.length := by omega
  rw [write, setPosition, if_neg hne, if_pos h]
  rfl

theorem eq_of_toU32 {n m : ℕ} (h : toU32 n = some m) : m = n := by
  rw [toU32] at h
  split at h
  · exact (Option.some.inj h).symm
  · cases h

theorem createAndBindLabel_inv {b' : AssemblerBuffer} (h : b.createAndBindLabel = some b') :
    b' = { b with labels := b.labels ++ [some b.position] } := by
  obtain ⟨offset, hoffset, h⟩ := Option.bind_eq_some_iff.mp h
  cases h
  rw [eq_of_toU32 hoffset]

theorem bindLabel_inv {b' : AssemblerBuffer} {lbl : Label} (h : b.bindLabel lbl = some b') :
    b.labels[lbl]? = some none ∧ b' = { b with labels := b.labels.set lbl (some b.position) } := by
  rw [bindLabel] at h
  split at h
  next hl =>
    obtain ⟨offset, hoffset, h⟩ := Option.bind_eq_some_iff.mp h
    cases h
    rw [eq_of_toU32 hoffset]
    exact ⟨hl, rfl⟩
  next => cases h

end AssemblerBuffer

/-! ### Assemblers -/

/-- A buffer, and the jumps whose labels were not bound when they were emitted. -/
structure Assembler (J : Type) where
  unresolvedJumps : List J
  buffer : AssemblerBuffer
deriving DecidableEq

namespace Assembler

variable {J : Type}

def new : Assembler J := ⟨[], .new⟩

section

variable (a : Assembler J) (resolveJump : AssemblerBuffer → J → Option AssemblerBuffer)
  (fill : Assembler J → Option (Assembler J))

def position : ℕ := a.buffer.position

def withBuffer (b : Option AssemblerBuffer) : Option (Assembler J) :=
  b.map fun b => ⟨a.unresolvedJumps, b⟩

def resolveJumps : Option (Assembler J) := do
  let b ← a.unresolvedJumps.foldlM resolveJump a.buffer
  some ⟨[], b.setPosition a.position⟩

/-- The code is filled up. The loop runs forever if it has not ended after as many steps. -/
def alignTo (alignment : ℕ) : Option (Assembler J) :=
  if alignment = 0 then none
  else
    whileLoop (fun a : Assembler J => a.buffer.code.length % alignment ≠ 0) fill (alignment + 1) a

def finalize (alignment : Option ℕ) : Option (List UInt8) := do
  let a ← a.resolveJumps resolveJump
  match alignment with
  | none => some a.buffer.code
  | some alignment => (a.alignTo fill alignment).map (·.buffer.code)

/-! ### Code with fixups -/

def view : Code UInt8 J := ⟨a.buffer.code, a.buffer.labels, a.unresolvedJumps⟩

def size : ℕ := a.buffer.code.length

/-- Everything is written at the end. -/
def AtEnd : Prop := a.position = a.size

def append (bytes : List UInt8) : Assembler J :=
  ⟨a.unresolvedJumps, a.buffer.code ++ bytes, (a.buffer.code ++ bytes).length, a.buffer.labels⟩

/-- Only the labels change. -/
def withLabels (labels : List (Option ℕ)) : Assembler J :=
  ⟨a.unresolvedJumps, a.buffer.code, a.size, labels⟩

@[simp]
theorem size_append (bytes : List UInt8) : (a.append bytes).size = a.size + bytes.length :=
  List.length_append

end

variable {a a' : Assembler J} {l : Label}

theorem write_eq (h : a.AtEnd) (bytes : List UInt8) :
    a.withBuffer (a.buffer.write bytes) = some (a.append bytes) := by
  rw [AssemblerBuffer.write_end h]
  rfl

theorem createLabel_eq (h : a.AtEnd) :
    ⟨a.unresolvedJumps, a.buffer.createLabel⟩ = a.withLabels (a.buffer.labels ++ [none]) := by
  rw [withLabels, ← h]
  rfl

theorem createAndBindLabel_inv (h : a.AtEnd)
    (hstep : a.withBuffer a.buffer.createAndBindLabel = some a') :
    a' = a.withLabels (a.buffer.labels ++ [some a.size]) := by
  obtain ⟨b, hb, rfl⟩ := Option.map_eq_some_iff.mp hstep
  rw [withLabels, ← h, AssemblerBuffer.createAndBindLabel_inv hb]
  rfl

theorem bindLabel_inv (h : a.AtEnd) (hstep : a.withBuffer (a.buffer.bindLabel l) = some a') :
    a.buffer.labels[l]? = some none ∧ a' = a.withLabels (a.buffer.labels.set l (some a.size)) := by
  obtain ⟨b, hb, rfl⟩ := Option.map_eq_some_iff.mp hstep
  obtain ⟨hl, rfl⟩ := AssemblerBuffer.bindLabel_inv hb
  rw [withLabels, ← h]
  exact ⟨hl, rfl⟩

theorem target_of_offset {v : Option ℕ} (h : a.buffer.offset l = some v) : a.view.target l = v := by
  exact congrArg Option.join h

theorem getElem?_of_target {t : ℕ} (h : a.view.target l = some t) :
    a.buffer.labels[l]? = some (some t) := by
  exact Option.join_eq_some_iff.mp h

theorem not_target_new {t : ℕ} : (new : Assembler J).view.target l ≠ some t := by
  simp [Code.target, view, new, AssemblerBuffer.new]

section Resolve

-- every jump is resolved by filling in its field
variable [Fixup UInt8 J] {resolveJump : AssemblerBuffer → J → Option AssemblerBuffer}
  (hresolve : ∀ b j, Fixup.start j + Fixup.size j ≤ b.code.length →
    (resolveJump b j).map AssemblerBuffer.view =
      (Fixup.encode b.labels j).map fun bytes => (patch b.code (Fixup.start j) bytes, b.labels))
  (hg : Code.Grows Code.empty a.view)

include hresolve hg

/-- **Resolving jumps is patching.** -/
theorem resolveJumps_eq :
    a.resolveJumps resolveJump =
      if a.view.Resolvable then some ⟨[], a.view.resolved, a.position, a.buffer.labels⟩
      else none := by
  have h := resolve_eq (v := AssemblerBuffer.view) hresolve Fixup.length_encode
    fun j (hj : j ∈ a.unresolvedJumps) => hg.fields.le _ (List.mem_map_of_mem hj)
  rw [resolveJumps]
  by_cases hres : a.view.Resolvable
  · rw [if_pos hres]
    obtain ⟨b, hb, heq⟩ := Option.map_eq_some_iff.mp (h.trans (if_pos hres))
    obtain ⟨hcode, hlabels⟩ := Prod.mk.inj heq
    rw [hb]
    change some (Assembler.mk [] ⟨b.code, a.position, b.labels⟩) = _
    rw [hcode, hlabels]
    rfl
  · rw [if_neg hres, Option.map_eq_none_iff.mp (h.trans (if_neg hres))]
    rfl

theorem finalize_none_eq (fill : Assembler J → Option (Assembler J)) :
    a.finalize resolveJump fill none =
      if a.view.Resolvable then some a.view.resolved else none := by
  rw [finalize, resolveJumps_eq hresolve hg]
  split <;> rfl

end Resolve

end Assembler

end Dora.Asm
