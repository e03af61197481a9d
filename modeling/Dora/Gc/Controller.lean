import Dora.Gc.Object

/-!
# The heap budget of Swiper

The controller of `dora/src/gc/swiper/controller.rs` divides a maximum heap size between eden, the
two semi-spaces and the old generation, at the start and after each collection; in between the old
generation may grow up to its limit.

## Main definitions

* `Stop`: a failed subtraction or assertion, and the trap for a heap that is too small
* `initConfig`, `stop`: the division at the start and after a collection
* `heapStep`: the heap under collections and growth
-/

namespace Dora.Gc

/-- The runtime stops: out of memory, or by an assertion or an underflow. -/
inductive Stop
  | oom
  | panic
deriving Repr, DecidableEq

/-- `assert!`. -/
def assert (p : Prop) [Decidable p] : Except Stop Unit :=
  if p then .ok () else .error .panic

/-- A subtraction of `usize`. -/
def checkedSub (a b : ℕ) : Except Stop ℕ :=
  if b ≤ a then .ok (a - b) else .error .panic

/-! ## Alignment -/

def genAlignmentBits : ℕ := 17

def genSize : ℕ := 1 <<< genAlignmentBits

def alignGen (value : ℕ) : ℕ :=
  ((value + (1 <<< genAlignmentBits) - 1) >>> genAlignmentBits) <<< genAlignmentBits

def alignGenDown (value : ℕ) : ℕ := clearBits value (genSize - 1)

def genAligned (size : ℕ) : Bool := size &&& (genSize - 1) == 0

/-- `mem::page_align`, for pages of `2 ^ pageBits` bytes. -/
def pageAlign (pageBits val : ℕ) : ℕ := ((val + (1 <<< pageBits) - 1) >>> pageBits) <<< pageBits

def isPageAligned (pageBits val : ℕ) : Bool := val == (val >>> pageBits) <<< pageBits

/-! ## Floating-point numbers -/

/-- The integer with a significand of 53 bits that is nearest to `n`; ties go to the even one. -/
def roundF64 (n : ℕ) : ℕ :=
  let e := n.log2 + 1 - 53
  let q := n / 2 ^ e
  let r := n % 2 ^ e
  if e = 0 then n
  else if 2 * r < 2 ^ e then q * 2 ^ e
  else if 2 ^ e < 2 * r then (q + 1) * 2 ^ e
  else (q + q % 2) * 2 ^ e

/-- The significand of the `f64` that is nearest to 0.9; its exponent is -53. -/
def nineTenths : ℕ := 8106479329266893

/-- `(n as f64 * 0.9) as usize`. -/
def timesNineTenths (n : ℕ) : ℕ := roundF64 (roundF64 n * nineTenths) / 2 ^ 53

/-! ## The controller -/

/-- The flags that the controller reads. -/
structure Args where
  youngSize : Option ℕ
  semiRatio : Option ℕ
deriving Repr, DecidableEq

/-- What the controller keeps between collections, the statistics apart. -/
structure HeapConfig where
  minHeapSize : ℕ
  maxHeapSize : ℕ
  edenSize : ℕ
  semiSize : ℕ
  oldSize : ℕ
  oldLimit : ℕ
deriving Repr, DecidableEq

def initHeapSizeRatio : ℕ := 2

def initSemiRatio : ℕ := 3

def calculateYoungSize (args : Args) (youngSize minSemiSize : ℕ) : Except Stop (ℕ × ℕ) := do
  let semiRatio := args.semiRatio.getD initSemiRatio
  let semiSize := if semiRatio = 0 then 0 else alignGen (youngSize / semiRatio)
  let semiSize := max semiSize minSemiSize
  let semiSize := max semiSize genSize
  let edenSize ← checkedSub youngSize semiSize
  return (edenSize, semiSize)

variable (config : HeapConfig)

/-- The size of the young generation at the start. -/
def initYoungSize (args : Args) : Except Stop ℕ := do
  match args.youngSize with
  | some youngSize =>
    let rest ← checkedSub config.maxHeapSize genSize
    return min (alignGen youngSize) rest
  | none =>
    let maxHeapSize := timesNineTenths config.maxHeapSize
    return alignGen (maxHeapSize / 2)

/-- What the old generation may grow to at least. -/
def initMinOldLimit (youngSize : ℕ) : Except Stop ℕ :=
  if youngSize < config.minHeapSize then checkedSub config.minHeapSize youngSize else .ok 0

/-- `init`. -/
def initConfig (args : Args) : Except Stop HeapConfig := do
  assert (config.minHeapSize ≤ config.maxHeapSize)
  let youngSize ← initYoungSize config args
  let youngSize := max youngSize genSize
  let (edenSize, semiSize) ← calculateYoungSize args youngSize 0
  let maxOldLimit ← checkedSub config.maxHeapSize youngSize
  let minOldLimit ← initMinOldLimit config youngSize
  let oldLimit := alignGen (config.maxHeapSize / initHeapSizeRatio)
  let oldLimit := min oldLimit maxOldLimit
  let oldLimit := max oldLimit minOldLimit
  return { config with edenSize, semiSize, oldSize := 0, oldLimit }

def HeapConfig.growOld (size : ℕ) : HeapConfig × Bool :=
  if config.oldSize + size ≤ config.oldLimit then
    ({ config with oldSize := config.oldSize + size }, true)
  else (config, false)

/-! ## The young generation -/

/-- A part of the young generation: its bounds, the end of what is committed and the end of what is
allocated. -/
structure Block where
  start : ℕ
  stop : ℕ
  committed : ℕ
  top : ℕ
deriving Repr, DecidableEq

namespace Block

def new (region : Region) (committedSize : ℕ) : Except Stop Block := do
  assert (committedSize ≤ region.size)
  return ⟨region.start, region.stop, region.start + committedSize, region.start⟩

def committedSize (block : Block) : ℕ := block.committed - block.start

def active (block : Block) : Region := ⟨block.start, block.top⟩

def setLimit (pageBits : ℕ) (block : Block) (newSize : ℕ) : Except Stop Block := do
  assert (isPageAligned pageBits newSize)
  let newCommitted := block.start + newSize
  assert (newCommitted ≤ block.stop)
  assert (block.top ≤ newCommitted)
  return { block with committed := newCommitted }

def resetTop (block : Block) : Block := { block with top := block.start }

def setTop (block : Block) (addr : ℕ) : Except Stop Block := do
  assert (block.start ≤ addr ∧ addr ≤ block.committed)
  return { block with top := addr }

end Block

/-- Eden and the two semi-spaces; `fromFirst` says that the first of them is from-space. -/
structure YoungGen where
  eden : Block
  first : Block
  second : Block
  fromFirst : Bool
deriving Repr, DecidableEq

namespace YoungGen

def new (total : Region) (edenSize semiSize : ℕ) : Except Stop YoungGen := do
  let edenTotal : Region := ⟨total.start, total.start + total.size / 2⟩
  let semiTotal : Region := ⟨edenTotal.stop, total.stop⟩
  let eden ← Block.new edenTotal edenSize
  let totalSemiSize := semiTotal.size / 2
  assert (semiSize ≤ totalSemiSize)
  assert (genAligned semiSize)
  let first : Region := ⟨semiTotal.start, semiTotal.start + totalSemiSize⟩
  let second : Region := ⟨first.stop, semiTotal.stop⟩
  assert (first.size = second.size)
  let first ← Block.new first (semiSize / 2)
  let second ← Block.new second (semiSize / 2)
  return ⟨eden, first, second, false⟩

variable (young : YoungGen)

def fromBlock : Block := if young.fromFirst then young.first else young.second

def toBlock : Block := if young.fromFirst then young.second else young.first

def setFrom (block : Block) : YoungGen :=
  if young.fromFirst then { young with first := block } else { young with second := block }

def setTo (block : Block) : YoungGen :=
  if young.fromFirst then { young with second := block } else { young with first := block }

def swapSemi : YoungGen := { young with fromFirst := !young.fromFirst }

/-- The committed sizes of eden and of the two semi-spaces together. -/
def committedSize : ℕ × ℕ :=
  (young.eden.committedSize, young.fromBlock.committedSize + young.toBlock.committedSize)

/-- A minor collection that has copied its survivors up to `top`. -/
def minorSuccess (top : ℕ) : Except Stop YoungGen := do
  let young := { young with eden := young.eden.resetTop }
  let young := young.setFrom young.fromBlock.resetTop
  let toBlock ← young.toBlock.setTop top
  return young.setTo toBlock

/-- A full collection leaves no object in the young generation. -/
def clear : YoungGen :=
  let young := { young with eden := young.eden.resetTop }
  let young := young.setFrom young.fromBlock.resetTop
  young.setTo young.toBlock.resetTop

def setLimit (pageBits : ℕ) (young : YoungGen) (edenSize semiSize : ℕ) : Except Stop YoungGen := do
  assert (genAligned edenSize)
  assert (genAligned semiSize)
  let eden ← young.eden.setLimit pageBits edenSize
  let young := { young with eden }
  let fromBlock ← young.fromBlock.setLimit pageBits (semiSize / 2)
  let young := young.setFrom fromBlock
  let toBlock ← young.toBlock.setLimit pageBits (semiSize / 2)
  return young.setTo toBlock

end YoungGen

/-- The size the young generation should have. -/
def targetYoungSize (args : Args) (rest : ℕ) : ℕ :=
  let targetYoungSize := alignGenDown (rest / 2)
  let targetYoungSize :=
    match args.youngSize with
    | some youngSize => min targetYoungSize (alignGen youngSize)
    | none => targetYoungSize
  max targetYoungSize genSize

/-- `stop`, at the end of a collection: `oldCommitted` and `largeCommitted` are the committed sizes
of the old generation and of the large objects. -/
def stop (pageBits : ℕ) (args : Args) (config : HeapConfig) (young : YoungGen)
    (oldCommitted largeCommitted : ℕ) : Except Stop (HeapConfig × YoungGen) := do
  assert (young.eden.active.size = 0)
  assert (young.fromBlock.active.size = 0)
  let oldSize := oldCommitted + largeCommitted
  let config := { config with oldSize }
  let rest ← checkedSub config.maxHeapSize config.oldSize
  let target := targetYoungSize args rest
  let toSize := young.toBlock.active.size
  let minSemiSize := alignGen (pageAlign pageBits toSize * 2)
  let (edenSize, semiSize) ← calculateYoungSize args target minSemiSize
  let youngSize := edenSize + semiSize
  if config.maxHeapSize < oldSize + youngSize then throw .oom
  let young ← young.setLimit pageBits edenSize semiSize
  let oldLimit ← checkedSub config.maxHeapSize youngSize
  let config := { config with oldLimit }
  assert (oldSize ≤ config.oldLimit)
  assert (youngSize + config.oldLimit ≤ config.maxHeapSize)
  return (config, young)

/-! ## Steps -/

/-- The configuration and the young generation. -/
structure HeapState where
  config : HeapConfig
  young : YoungGen
deriving Repr, DecidableEq

/-- What happens to the heap: the old generation or the large objects grow, or a collection ends
with so many bytes of survivors in to-space and such committed sizes. A full collection may follow
a minor one whose promotions have failed. -/
inductive HeapOp
  | growOld (size : ℕ)
  | minor (survivors oldCommitted largeCommitted : ℕ)
  | full (promotionFailed : Bool) (oldCommitted largeCommitted : ℕ)
deriving Repr, DecidableEq

/-- One step. A minor collection swaps the semi-spaces, a full one clears the young generation, and
both end with `stop`. -/
def heapStep (pageBits : ℕ) (args : Args) (s : HeapState) : HeapOp → Except Stop HeapState
  | .growOld size => return { s with config := (s.config.growOld size).1 }
  | .minor survivors oldCommitted largeCommitted => do
    let young := s.young.swapSemi
    let young ← young.minorSuccess (young.toBlock.start + survivors)
    let (config, young) ← stop pageBits args s.config young oldCommitted largeCommitted
    return ⟨config, young⟩
  | .full promotionFailed oldCommitted largeCommitted => do
    let young := if promotionFailed then s.young.swapSemi else s.young
    let young := young.clear
    let (config, young) ← stop pageBits args s.config young oldCommitted largeCommitted
    return ⟨config, young⟩

end Dora.Gc
