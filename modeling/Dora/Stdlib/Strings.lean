import Mathlib.Algebra.Group.Int.Defs
import Mathlib.Algebra.Group.Nat.Defs
import Mathlib.Data.List.Basic

/-!
# Strings

Characters, string buffers and the iteration over the code points of a string, as the standard
library has them. A `Char` is its code point, which `toCharUnchecked` does not check, and a string
is its bytes. `Int32` numbers are bit vectors; sizes and offsets are natural numbers, since no array
is large enough for an `Int64` to overflow. An access out of bounds, a `fatalError` and a
`getOrPanic` without a value are `none`.
-/

namespace Dora.Stdlib

/-- `Array[UInt8]::set`. -/
def setByte (bytes : List UInt8) (idx : ℕ) (value : UInt8) : Option (List UInt8) :=
  if idx < bytes.length then some (bytes.set idx value) else none

/-- `Int32::toUInt8`. -/
def toUInt8 (value : BitVec 32) : UInt8 := UInt8.ofBitVec (value.setWidth 8)

/-- `UInt8::toInt32`. -/
def toInt32 (value : UInt8) : BitVec 32 := value.toBitVec.setWidth 32

/-! ## The encoder -/

namespace Char

def encodeUtf8 (val : BitVec 32) (bytes : List UInt8) (offset : ℕ) : Option (List UInt8) :=
  if val.slt 0x80#32 then
    setByte bytes offset (toUInt8 val)
  else if val.slt 0x800#32 then do
    let bytes ← setByte bytes offset (toUInt8 (0xC0 ||| (val.sshiftRight 6 &&& 0x1F)))
    setByte bytes (offset + 1) (toUInt8 (0x80 ||| (val &&& 0x3F)))
  else if val.slt 0x10000#32 then do
    let bytes ← setByte bytes offset (toUInt8 (0xE0 ||| (val.sshiftRight 12 &&& 0x0F)))
    let bytes ← setByte bytes (offset + 1) (toUInt8 (0x80 ||| (val.sshiftRight 6 &&& 0x3F)))
    setByte bytes (offset + 2) (toUInt8 (0x80 ||| (val &&& 0x3F)))
  else do
    let bytes ← setByte bytes offset (toUInt8 (0xF0 ||| (val.sshiftRight 18 &&& 0x07)))
    let bytes ← setByte bytes (offset + 1) (toUInt8 (0x80 ||| (val.sshiftRight 12 &&& 0x3F)))
    let bytes ← setByte bytes (offset + 2) (toUInt8 (0x80 ||| (val.sshiftRight 6 &&& 0x3F)))
    setByte bytes (offset + 3) (toUInt8 (0x80 ||| (val &&& 0x3F)))

def lenUtf8 (val : BitVec 32) : ℕ :=
  if val.slt 0x80#32 then 1
  else if val.slt 0x800#32 then 2
  else if val.slt 0x10000#32 then 3
  else 4

end Char

/-! ## Buffers -/

structure StringBuffer where
  buf : List UInt8
  len : ℕ
deriving DecidableEq

namespace StringBuffer

def new : StringBuffer := ⟨[], 0⟩

variable (b : StringBuffer)

/-- The mask `!7` clears the last three bits. -/
def newCapacity (reserve : ℕ) : ℕ :=
  let len := if b.len = 0 then 4 else b.len
  let c1 := (len + reserve + 7) / 8 * 8
  let c2 := len * 2
  if c1 > c2 then c1
  else if c2 - c1 > 32 then c1
  else c2

/-- The loop of `reserve`. -/
def copyBytes (buf newbuf : List UInt8) : Option (List UInt8) :=
  (List.range buf.length).foldlM (fun newbuf i => do setByte newbuf i (← buf[i]?)) newbuf

def reserve (elements : ℕ) : Option StringBuffer :=
  if (b.buf.length : ℤ) - b.len ≥ elements then some b
  else do
    let newbuf ← copyBytes b.buf (List.replicate (b.newCapacity elements) 0)
    some ⟨newbuf, b.len⟩

def appendChar (ch : BitVec 32) : Option StringBuffer := do
  let chLen := Char.lenUtf8 ch
  let b ← b.reserve chLen
  let buf ← Char.encodeUtf8 ch b.buf b.len
  some ⟨buf, b.len + chLen⟩

end StringBuffer

/-- `String::fromBytesPart`: the runtime returns null for an offset out of bounds and for bytes that
are not UTF-8. -/
def fromBytesPart (val : List UInt8) (offset len : ℕ) : Option (List UInt8) :=
  if offset > val.length then none
  else
    let slice := (val.drop offset).take (min (val.length - offset) len)
    if slice.toByteArray.validateUTF8 then some slice else none

/-- The string in a buffer. -/
def StringBuffer.toString (b : StringBuffer) : Option (List UInt8) := fromBytesPart b.buf 0 b.len

/-! ## The decoder -/

structure CodepointIterator where
  value : List UInt8
  start : ℕ
deriving DecidableEq

namespace CodepointIterator

def new (value : List UInt8) : CodepointIterator := ⟨value, 0⟩

variable (it : CodepointIterator)

/-- `value.getByte(start + i).toInt32() & 0x3F`. -/
def continuation (i : ℕ) : Option (BitVec 32) := do
  let byte ← it.value[it.start + i]?
  some (toInt32 byte &&& 0x3F)

def readChar : Option (BitVec 32 × CodepointIterator) := do
  let ch ← it.value[it.start]?
  if ch ≤ 0x7F then
    some (toInt32 ch, ⟨it.value, it.start + 1⟩)
  else if ch ≤ 0xBF then none
  else if ch ≤ 0xDF then
    let cp := (toInt32 ch &&& 0x1F) <<< 6 ||| (← it.continuation 1)
    some (cp, ⟨it.value, it.start + 2⟩)
  else if ch ≤ 0xEF then
    let cp := (toInt32 ch &&& 0xF) <<< 12 ||| (← it.continuation 1) <<< 6 ||| (← it.continuation 2)
    some (cp, ⟨it.value, it.start + 3⟩)
  else if ch ≤ 0xF7 then
    let cp := (toInt32 ch &&& 0x03) <<< 18 ||| (← it.continuation 1) <<< 12 |||
      (← it.continuation 2) <<< 6 ||| (← it.continuation 3)
    some (cp, ⟨it.value, it.start + 4⟩)
  else none

def next : Option (Option (BitVec 32) × CodepointIterator) :=
  if it.start < it.value.length then do
    let (ch, it) ← it.readChar
    some (some ch, it)
  else some (none, it)

def peek : Option (BitVec 32) := do
  let ch ← it.value[it.start]?
  if ch ≤ 0x7F then
    some (toInt32 ch)
  else if ch ≤ 0xBF then none
  else if ch ≤ 0xDF then
    some ((toInt32 ch &&& 0x1F) <<< 6 ||| (← it.continuation 1))
  else if ch ≤ 0xEF then
    some ((toInt32 ch &&& 0xF) <<< 12 ||| (← it.continuation 1) <<< 6 ||| (← it.continuation 2))
  else if ch ≤ 0xF7 then
    some ((toInt32 ch &&& 0x03) <<< 18 ||| (← it.continuation 1) <<< 12 |||
      (← it.continuation 2) <<< 6 ||| (← it.continuation 3))
  else none

/-- The characters of a `for` loop over the iterator. Every character takes at least one byte, so
the length of the string bounds the number of rounds. -/
def collect : ℕ → CodepointIterator → Option (List (BitVec 32))
  | 0, _ => none
  | fuel + 1, it => do
    match ← it.next with
    | (some ch, it) => return ch :: (← collect fuel it)
    | (none, _) => return []

end CodepointIterator

/-- `codePoints()` and the loop over it. -/
def codePoints (value : List UInt8) : Option (List (BitVec 32)) :=
  (CodepointIterator.new value).collect (value.length + 1)

end Dora.Stdlib
