import Dora.Lib.Evacuation
import Dora.Lib.Layout
import Dora.Lib.Loop
import Dora.Gc.Object

/-!
# The copy collector

The collector of `dora/src/gc/copy.rs` copies the objects the roots reach from one half of the heap
to the other and scans the copies in the same order: it redirects their references, copying the
targets that have not been copied, until the scan has caught up with the end of the copies.

## Main definitions

* `copyCollect`: a collection
* `objectGraph`: the objects of a space as a graph
-/

namespace Dora.Gc

/-- The heap of the copy collector: two halves of one size, and an allocation area that ends where
one of them does. -/
structure CopyCollector where
  total : Region
  separator : ℕ
  top : ℕ
  limit : ℕ
  start_le : total.start ≤ separator
  halves : separator + (separator - total.start) = total.stop
  aligned_start : 8 ∣ total.start
  aligned_separator : 8 ∣ separator
  limit_eq : limit = separator ∨ limit = total.stop

namespace CopyCollector

def fromSpace (c : CopyCollector) : Region :=
  if c.limit = c.separator then ⟨c.total.start, c.separator⟩ else ⟨c.separator, c.total.stop⟩

def toSpace (c : CopyCollector) : Region :=
  if c.limit = c.separator then ⟨c.separator, c.total.stop⟩ else ⟨c.total.start, c.separator⟩

end CopyCollector

/-- What changes while objects are copied: the memory and the end of the copies. -/
structure CopyState where
  memory : Memory
  top : ℕ

variable (classes : Classes)

/-- The address of the object's copy, which is made if there is none. -/
def copy (st : CopyState) (objAddr : ℕ) : ℕ × CopyState :=
  match vtblptrForwarded st.memory objAddr with
  | some fwd => (fwd, st)
  | none =>
    let addr := st.top
    let objSize := size classes st.memory objAddr
    let memory := copyTo st.memory objAddr addr objSize
    (addr, { memory := vtblptrForward memory objAddr addr, top := st.top + objSize })

/-- What is done with a root and with a reference field. -/
def visitSlot (fromSpace : Region) (st : CopyState) (slot : ℕ) : CopyState :=
  let ptr := st.memory slot
  if fromSpace.contains ptr then
    let (addr, st) := copy classes st ptr
    { st with memory := Function.update st.memory slot addr }
  else st

/-- The state of the scan. -/
structure ScanState extends CopyState where
  scan : ℕ

/-- One round of the loop `while scan < top`. -/
def scanObject (fromSpace : Region) (st : ScanState) : Option ScanState := do
  let fields ← visitReferenceFields classes st.memory st.scan
  let st' := fields.foldl (visitSlot classes fromSpace) st.toCopyState
  some { st' with scan := st.scan + size classes st'.memory st.scan }

/-- `iterate_weak_roots`: the finalizers of objects that have been copied follow them, the others
are dropped. -/
def iterateWeakRoots {θ : Type} (m : Memory) (finalizers : List (ℕ × θ)) : List (ℕ × θ) :=
  finalizers.filterMap fun p => (vtblptrForwarded m p.1).map fun addr => (addr, p.2)

/-- What a collection leaves behind: the allocation area, the memory and the finalizers. -/
structure Collected (θ : Type) where
  top : ℕ
  limit : ℕ
  memory : Memory
  finalizers : List (ℕ × θ)

/-- A collection; it returns nothing if the scan does not end within `fuel` rounds. -/
def copyCollect {θ : Type} (classes : Classes) (fuel : ℕ) (c : CopyCollector) (roots : List ℕ)
    (finalizers : List (ℕ × θ)) (m : Memory) : Option (Collected θ) := do
  let toSpace := c.toSpace
  let fromSpace := c.fromSpace
  let top := toSpace.start
  let scan := top
  let st := roots.foldl (visitSlot classes fromSpace) ⟨m, top⟩
  let st ← whileLoop (fun st => decide (st.scan < st.top)) (scanObject classes fromSpace) fuel
    { st with scan := scan }
  some
    { top := st.top
      limit := toSpace.stop
      memory := st.memory
      finalizers := iterateWeakRoots st.memory finalizers }

/-! ## Heaps -/

/-- The graph of the objects in a space that the slots reach. -/
def objectGraph (space : Region) (slots : Set ℕ) (m : Memory) :
    ObjectGraph where
  memory := m
  slots := slots
  size := size classes m
  offsets := offsets classes m
  movable := space.contains

/-- Objects in a space: each has a layout, they stand apart, and what refers into the space refers
to one of them. -/
structure Objects (space : Region) (objects : Finset ℕ) (m : Memory) :
    Prop where
  inside : ∀ o ∈ objects, space.start ≤ o ∧ o + size classes m o ≤ space.stop
  aligned : ∀ o ∈ objects, 8 ∣ o
  vtbl_aligned : ∀ o ∈ objects, 8 ∣ m o
  wellFormed : ∀ o ∈ objects, (classes (m o)).WellFormed
  apart : ∀ o ∈ objects, ∀ o' ∈ objects, o ≠ o' → Apart o (size classes m o) o' (size classes m o')
  refers : ∀ o ∈ objects, ∀ k ∈ offsets classes m o, space.contains (m (o + k)) = true →
    m (o + k) ∈ objects

/-- The roots stand outside of the heap, and those that refer into the space refer to objects. -/
structure Roots (total space : Region) (objects : Finset ℕ) (roots : List ℕ) (m : Memory) :
    Prop where
  outside : ∀ s ∈ roots, s + 8 ≤ total.start ∨ total.stop ≤ s
  refers : ∀ s ∈ roots, space.contains (m s) = true → m s ∈ objects

end Dora.Gc
