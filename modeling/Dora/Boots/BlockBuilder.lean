import Dora.Boots.Graph
import Dora.Stdlib.BitSet
import Dora.Boots.Iterator

/-!
# Blocks from bytecode

The first of two passes creates the blocks: backward targets and the instructions behind a jump get
theirs at once, forward targets when the pass comes to them. The second one adds the edges. Both
fail where the source panics; they decode the code as they go.

## Main definitions

* `BlockCreator.run`, `EdgeCreator.run`: the two passes
* `createBlocksWithEdgesFromBytecode`: one after the other
-/

namespace Dora.Boots

open Stdlib (BitSet)

def ConstPoolEntry.toInt32 : ConstPoolEntry → Option (BitVec 32)
  | .int32 value => some value
  | _ => none

/-- `constPool(idx)`: the index is a signed number. -/
def BytecodeFunction.constPoolAt (bc : BytecodeFunction) (idx : ConstPoolId) :
    Option ConstPoolEntry :=
  if idx.value.toInt < 0 then none else bc.constPool[idx.value.toInt.toNat]?

/-- `constPool(idx).toInt32().getOrPanic()`. -/
def BytecodeFunction.constInt32At (bc : BytecodeFunction) (idx : ConstPoolId) : Option ℤ := do
  let entry ← bc.constPoolAt idx
  let value ← entry.toInt32
  some value.toInt

structure BlockMap where
  blocks : List (ℤ × ℕ)
deriving DecidableEq

namespace BlockMap

def new : BlockMap := ⟨[]⟩

variable (m : BlockMap)

def insert (offset : ℤ) (block : ℕ) : BlockMap := ⟨(offset, block) :: m.blocks⟩

def blockAt (offset : ℤ) : Option ℕ := m.blocks.lookup offset

end BlockMap

/-! ## The first pass -/

structure BlockCreator where
  graph : Graph
  blockMap : BlockMap
  blockStarts : BitSet

namespace BlockCreator

def new (graph : Graph) (bc : BytecodeFunction) (blockMap : BlockMap) : BlockCreator :=
  ⟨graph, blockMap, BitSet.new bc.code.length⟩

variable (bc : BytecodeFunction)

/-- The block at an offset, unless the offset is the end of the code. -/
def ensureBlock (offset : ℤ) (c : BlockCreator) : Option (Option ℕ × BlockCreator) :=
  if offset ≤ bc.code.length then
    if offset = bc.code.length then some (none, c)
    else match c.blockMap.blockAt offset with
      | some block => some (some block, c)
      | none => do
        let (block, graph) ← c.graph.addBlock
        some (some block, ⟨graph, c.blockMap.insert offset block, c.blockStarts⟩)
  else none

def ensureBlockLazy (offset : ℤ) (c : BlockCreator) : Option BlockCreator := do
  let blockStarts ← c.blockStarts.insert offset
  some ⟨c.graph, c.blockMap, blockStarts⟩

def processInstruction (start size : ℕ) (inst : BytecodeInstruction) (c : BlockCreator) :
    Option BlockCreator :=
  match inst with
  | .ret _ => do
    let (_, c) ← ensureBlock bc (start + size) c
    some c
  | .loopStart => do
    let (_, c) ← ensureBlock bc start c
    some c
  | .jumpLoop distance =>
    let target := start - distance.toInt
    if (c.blockMap.blockAt target).isSome then some c else none
  | .jumpIfFalse _ distance => do
    let c ← ensureBlockLazy (start + distance.toInt) c
    let (_, c) ← ensureBlock bc (start + size) c
    some c
  | .jumpIfFalseConst _ idx => do
    let distance ← bc.constInt32At idx
    let c ← ensureBlockLazy (start + distance) c
    let (_, c) ← ensureBlock bc (start + size) c
    some c
  | .jumpIfTrue _ distance => do
    let c ← ensureBlockLazy (start + distance.toInt) c
    let (_, c) ← ensureBlock bc (start + size) c
    some c
  | .jumpIfTrueConst _ idx => do
    let distance ← bc.constInt32At idx
    let c ← ensureBlockLazy (start + distance) c
    let (_, c) ← ensureBlock bc (start + size) c
    some c
  | .jump distance => do
    let c ← ensureBlockLazy (start + distance.toInt) c
    let (_, c) ← ensureBlock bc (start + size) c
    some c
  | .jumpConst idx => do
    let distance ← bc.constInt32At idx
    let c ← ensureBlockLazy (start + distance) c
    let (_, c) ← ensureBlock bc (start + size) c
    some c
  | _ => some c

/-- The start of a round: a forward target gets its block. -/
def instructionStart (start : ℕ) (c : BlockCreator) : Option BlockCreator := do
  if ← c.blockStarts.contains start then
    let (_, c) ← ensureBlock bc start c
    some c
  else some c

def round (c : BlockCreator) (instInfo : BytecodeInstructionInfo) : Option BlockCreator := do
  let c ← c.instructionStart bc instInfo.start
  c.processInstruction bc instInfo.start instInfo.size instInfo.inst

/-- The block of the first instruction becomes the entry block. -/
def start (c : BlockCreator) : Option BlockCreator := do
  let (block, c) ← ensureBlock bc 0 c
  let entryBlock ← block
  some ⟨c.graph.setEntryBlock entryBlock, c.blockMap, c.blockStarts⟩

def run (c : BlockCreator) : Option BlockCreator := do
  let c ← c.start bc
  let instInfos ← decodeBytecode bc.code
  instInfos.foldlM (round bc) c

end BlockCreator

/-! ## The second pass -/

structure EdgeCreator where
  graph : Graph
  offset : ℕ
  currentBlock : Option ℕ
  blockTerminated : Bool

namespace EdgeCreator

def new (graph : Graph) : EdgeCreator := ⟨graph, 0, none, false⟩

variable (bc : BytecodeFunction) (blockMap : BlockMap)

/-- An edge from the current block to the block at an offset. -/
def addSuccessorAt (offset : ℤ) (c : EdgeCreator) : Option EdgeCreator := do
  let targetBlock ← blockMap.blockAt offset
  let currentBlock ← c.currentBlock
  some { c with graph := c.graph.addSuccessor currentBlock targetBlock }

variable (c : EdgeCreator)

def markBlockTerminated : EdgeCreator := { c with blockTerminated := true }

def processInstruction (inst : BytecodeInstruction) (c : EdgeCreator) : Option EdgeCreator :=
  match inst with
  | .jumpLoop distance => do
    let c ← c.addSuccessorAt blockMap (c.offset - distance.toInt)
    some c.markBlockTerminated
  | .jumpIfFalse _ distance => c.addSuccessorAt blockMap (c.offset + distance.toInt)
  | .jumpIfFalseConst _ idx => do
    let distance ← bc.constInt32At idx
    c.addSuccessorAt blockMap (c.offset + distance)
  | .jumpIfTrue _ distance => c.addSuccessorAt blockMap (c.offset + distance.toInt)
  | .jumpIfTrueConst _ idx => do
    let distance ← bc.constInt32At idx
    c.addSuccessorAt blockMap (c.offset + distance)
  | .jump distance => do
    let c ← c.addSuccessorAt blockMap (c.offset + distance.toInt)
    some c.markBlockTerminated
  | .jumpConst idx => do
    let distance ← bc.constInt32At idx
    let c ← c.addSuccessorAt blockMap (c.offset + distance)
    some c.markBlockTerminated
  | .ret _ => some c.markBlockTerminated
  | _ => some c

/-- A block that starts here is entered from the current one, unless that one was terminated. -/
def instructionStart : EdgeCreator :=
  match blockMap.blockAt c.offset with
  | some nextBlock =>
    let graph := match c.currentBlock with
      | some currentBlock =>
        if c.blockTerminated then c.graph else c.graph.addSuccessor currentBlock nextBlock
      | none => c.graph
    ⟨graph, c.offset, some nextBlock, false⟩
  | none => ⟨c.graph, c.offset, c.currentBlock, false⟩

def round (instInfo : BytecodeInstructionInfo) : Option EdgeCreator :=
  let c := instructionStart blockMap { c with offset := instInfo.start }
  c.processInstruction bc blockMap instInfo.inst

def run : Option EdgeCreator := do
  let instInfos ← decodeBytecode bc.code
  instInfos.foldlM (round bc blockMap) c

end EdgeCreator

def createBlocksWithEdgesFromBytecode (graph : Graph) (bc : BytecodeFunction) :
    Option (Graph × BlockMap) := do
  let blocks ← (BlockCreator.new graph bc BlockMap.new).run bc
  let edges ← (EdgeCreator.new blocks.graph).run bc blocks.blockMap
  some (edges.graph, blocks.blockMap)

end Dora.Boots
