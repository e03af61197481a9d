import Dora.Gc.OldGen
import Dora.Gc.Walk
import Dora.Lib.System

/-!
# The parallel minor collection

Tasks (`CopyTask` of `dora/src/gc/swiper/pminor.rs`) copy the young objects that their slots refer
to, to to-space or to the old generation. A task loads the header of an object, allocates memory,
copies the object there and then tries to exchange the vtable in the header for the new address. If
another task was faster, a small copy is taken back, one of medium size stays where it is.

A step has one access to what the tasks share. A task visits its slots and then takes any copy whose
fields have not been visited, until there is none. Cards and the crossing map are left out.

## Main definitions

* `CopyTasks.run`, `CopyTasks.take`, `CopyTasks.finish`: the steps of a task
* `copySystem`: the system of tasks
-/

namespace Dora.Gc

/-! ## Headers -/

section Header

variable (m : Memory) (object : ℕ)

/-- Where a header word that is no vtable forwards to. -/
def forwardedTo (word : ℕ) : ℕ := if word &&& 3 = 3 then object else clearBits word 1

/-- The new address of the object, or its vtable. -/
def hasForwardingPointer : Except ℕ ℕ :=
  let addr := m object
  if addr &&& 3 = 3 then .ok object
  else if addr &&& 1 = 1 then .ok (clearBits addr 1)
  else .error addr

def forwardSynchronized (expectedVtblptr newAddress : ℕ) : Except ℕ ℕ × Memory :=
  if m object = expectedVtblptr then
    (.ok newAddress, Function.update m object (newAddress ||| 1))
  else (.error (forwardedTo object (m object)), m)

def forwardingFailed (expectedVtblptr : ℕ) : Except ℕ Unit × Memory :=
  if m object = expectedVtblptr then
    (.ok (), Function.update m object (expectedVtblptr ||| 3))
  else (.error (forwardedTo object (m object)), m)

end Header

/-! ## Buffers -/

/-- A local allocation buffer. -/
structure Lab where
  top : ℕ
  limit : ℕ
deriving DecidableEq

namespace Lab

def new : Lab := ⟨0, 0⟩

def alloc (lab : Lab) (size : ℕ) : Option (ℕ × Lab) :=
  if lab.top + size ≤ lab.limit then some (lab.top, { lab with top := lab.top + size }) else none

def undoAlloc (lab : Lab) (size : ℕ) : Lab := { lab with top := lab.top - size }

end Lab

def clabSize : ℕ := 32 * 1024

def clabObjectSize : ℕ := 8 * 1024

/-- What the collection does not change: the classes, the bounds of the young generation and of
to-space, and the age marker. -/
structure MinorHeap where
  classes : Classes
  fillers : Fillers
  young : Region
  toSpace : Region
  semiStart : ℕ
  ageMarker : ℕ

def MinorHeap.shouldBePromoted (E : MinorHeap) (addr : ℕ) : Bool :=
  if addr < E.semiStart then false else decide (addr < E.ageMarker)

/-- What the tasks allocate from: the top of to-space and the old generation. -/
structure Tops (n : ℕ) where
  youngTop : ℕ
  old : OldGen n

namespace Tops

variable {n : ℕ}

/-- Memory at the top of to-space. -/
def bumpYoung (E : MinorHeap) (tops : Tops n) (size : ℕ) : Option ℕ × Tops n :=
  if tops.youngTop + size ≤ E.toSpace.stop then
    (some tops.youngTop, { tops with youngTop := tops.youngTop + size })
  else (none, tops)

/-- Memory in the old generation. -/
def bumpOld (tops : Tops n) (size : ℕ) : Option ℕ × Tops n :=
  ((tops.old.alloc size).1, { tops with old := (tops.old.alloc size).2 })

end Tops

/-- A buffer of a task, whether its generation has failed to give it memory, and what the tasks
share. -/
structure Allocation (n : ℕ) where
  lab : Lab
  failed : Bool
  memory : Memory
  tops : Tops n

section Allocation

variable {n : ℕ} (fillers : Fillers) (bump : Tops n → ℕ → Option ℕ × Tops n)

/-- A small object is allocated in the buffer. If it is full, it is made iterable, and there is a
new one. -/
def allocSmall (st : Allocation n) (size : ℕ) : Option ℕ × Allocation n :=
  match st.lab.alloc size with
  | some (addr, lab) => (some addr, { st with lab })
  | none =>
    if st.failed then (none, st)
    else
      let memory := fillRegion fillers st.memory st.lab.top st.lab.limit
      match bump st.tops clabSize with
      | (none, tops) => (none, ⟨.new, true, memory, tops⟩)
      | (some start, tops) =>
        match (⟨start, start + clabSize⟩ : Lab).alloc size with
        | some (addr, lab) => (some addr, ⟨lab, false, memory, tops⟩)
        | none => (none, ⟨⟨start, start + clabSize⟩, false, memory, tops⟩)

/-- An object of medium size is allocated outside of the buffer. -/
def allocMedium (st : Allocation n) (size : ℕ) : Option ℕ × Allocation n :=
  if st.failed then (none, st)
  else
    match bump st.tops size with
    | (none, tops) => (none, { st with failed := true, tops })
    | (some addr, tops) => (some addr, { st with tops })

def allocObject (st : Allocation n) (size : ℕ) : Option ℕ × Allocation n :=
  if size < clabObjectSize then allocSmall fillers bump st size else allocMedium bump st size

end Allocation

/-! ## Tasks -/

/-- A copy that is being made: `obj`, which `slot` refers to, goes to `dest`. -/
structure Claim where
  slot : ℕ
  obj : ℕ
  vtblptr : ℕ
  size : ℕ
  promote : Bool
  dest : ℕ
deriving DecidableEq

/-- Where a task is. -/
inductive CopyPc
  /-- between two slots -/
  | idle
  /-- `copy`, before the header is loaded -/
  | load (slot obj : ℕ)
  /-- `copy`, before the allocation in to-space -/
  | allocYoung (slot obj vtblptr : ℕ)
  /-- `promote_object`, before the allocation -/
  | promote (slot obj vtblptr : ℕ)
  /-- before `copy_to` -/
  | copyTo (claim : Claim)
  /-- before `forward_synchronized` -/
  | forward (claim : Claim)
  /-- before `forwarding_failed` -/
  | fail (slot obj vtblptr : ℕ)
  | done
deriving DecidableEq

/-- The variables of a task. `todo` are the slots it is to visit before it takes another object. -/
structure CopyTask where
  pc : CopyPc
  todo : List ℕ
  youngLab : Lab
  copyFailed : Bool
  oldLab : Lab
  promotionFailed : Bool

/-- What the tasks share, and the tasks. `gray` are the copies whose fields have not been visited,
and `forwarded` records the addresses that were put into headers. -/
structure CopyTasks (ι : Type) (n : ℕ) where
  memory : Memory
  tops : Tops n
  gray : List ℕ
  forwarded : List (ℕ × ℕ)
  tasks : ι → CopyTask

variable {ι : Type} [DecidableEq ι] {n : ℕ}

/-- A task does a step of its own, takes the `k`-th gray object, or ends. -/
inductive CopyAction (ι : Type)
  | run (i : ι)
  | take (i : ι) (k : ℕ)
  | finish (i : ι)

namespace CopyTasks

variable (E : MinorHeap) (s : CopyTasks ι n) (i : ι)

/-- The task has other variables. -/
def setTask (t : CopyTask) : CopyTasks ι n := { s with tasks := Function.update s.tasks i t }

/-- `copy` returns, and the slot is set. -/
def setSlot (t : CopyTask) (memory : Memory) (slot value : ℕ) : CopyTasks ι n :=
  { s with
    memory := Function.update memory slot value
    tasks := Function.update s.tasks i { t with pc := .idle } }

def allocYoung (size : ℕ) : Option ℕ × CopyTasks ι n :=
  let t := s.tasks i
  let (addr, st) := allocObject E.fillers (Tops.bumpYoung E)
    ⟨t.youngLab, t.copyFailed, s.memory, s.tops⟩ size
  (addr, { s with
    memory := st.memory
    tops := st.tops
    tasks := Function.update s.tasks i { t with youngLab := st.lab, copyFailed := st.failed } })

def allocOld (size : ℕ) : Option ℕ × CopyTasks ι n :=
  let t := s.tasks i
  let (addr, st) := allocObject E.fillers Tops.bumpOld
    ⟨t.oldLab, t.promotionFailed, s.memory, s.tops⟩ size
  (addr, { s with
    memory := st.memory
    tops := st.tops
    tasks := Function.update s.tasks i { t with oldLab := st.lab, promotionFailed := st.failed } })

/-- `undo_alloc_young` and `undo_alloc_old`: objects of medium size can't be undone. -/
def undoAlloc (t : CopyTask) (claim : Claim) : CopyTask :=
  if claim.size < clabObjectSize then
    if claim.promote then { t with oldLab := t.oldLab.undoAlloc claim.size }
    else { t with youngLab := t.youngLab.undoAlloc claim.size }
  else t

/-- The task is at another place. -/
def goto (pc : CopyPc) : CopyTasks ι n := s.setTask i { s.tasks i with pc }

/-- A step of a task. -/
def run : Outcome (CopyTasks ι n) :=
  let t := s.tasks i
  match t.pc with
  | .idle =>
    match t.todo with
    | [] => .waits
    | slot :: todo =>
      let obj := s.memory slot
      if E.young.contains obj then .next (s.setTask i { t with pc := .load slot obj, todo })
      else .next (s.setTask i { t with todo })
  | .load slot obj =>
    match hasForwardingPointer s.memory obj with
    | .ok fwdAddr => .next (s.setSlot i t s.memory slot fwdAddr)
    | .error vtblptr =>
      if t.promotionFailed then .next (s.setSlot i t s.memory slot obj)
      else if t.copyFailed || E.shouldBePromoted obj then
        .next (s.goto i (.promote slot obj vtblptr))
      else .next (s.goto i (.allocYoung slot obj vtblptr))
  | .allocYoung slot obj vtblptr =>
    let size := sizeForVtblptr E.classes s.memory obj vtblptr
    match s.allocYoung E i size with
    | (none, s) => .next (s.goto i (.promote slot obj vtblptr))
    | (some dest, s) => .next (s.goto i (.copyTo ⟨slot, obj, vtblptr, size, false, dest⟩))
  | .promote slot obj vtblptr =>
    let size := sizeForVtblptr E.classes s.memory obj vtblptr
    match s.allocOld E i size with
    | (none, s) => .next (s.goto i (.fail slot obj vtblptr))
    | (some dest, s) => .next (s.goto i (.copyTo ⟨slot, obj, vtblptr, size, true, dest⟩))
  | .copyTo claim =>
    .next ({ s with memory := copyTo s.memory claim.obj claim.dest claim.size }.goto i
      (.forward claim))
  | .forward claim =>
    match forwardSynchronized s.memory claim.obj claim.vtblptr claim.dest with
    | (.ok addr, memory) =>
      .next ({ s with
        gray := addr :: s.gray
        forwarded := s.forwarded ++ [(claim.obj, addr)] }.setSlot i t memory claim.slot addr)
    | (.error fwdptr, memory) => .next (s.setSlot i (undoAlloc t claim) memory claim.slot fwdptr)
  | .fail slot obj vtblptr =>
    match forwardingFailed s.memory obj vtblptr with
    | (.ok _, memory) => .next (s.setSlot i t memory slot obj)
    | (.error fwdptr, memory) => .next (s.setSlot i t memory slot fwdptr)
  | .done => .waits

/-- The task has no work of its own. -/
def Resting (t : CopyTask) : Prop := t.todo = [] ∧ (t.pc = .idle ∨ t.pc = .done)

instance (t : CopyTask) : Decidable (Resting t) := inferInstanceAs (Decidable (_ ∧ _))

/-- The fields of a gray object are to be visited. Code objects are `unreachable!`. -/
def take (k : ℕ) : Outcome (CopyTasks ι n) :=
  let t := s.tasks i
  match s.gray[k]? with
  | none => .waits
  | some object =>
    if t.pc = .idle ∧ t.todo = [] then
      match visitReferenceFields E.classes s.memory object with
      | none => .fails
      | some todo => .next ({ s with gray := s.gray.eraseIdx k }.setTask i { t with todo })
    else .waits

/-- The end of a task: its buffers are made iterable. -/
def finish [Fintype ι] : Outcome (CopyTasks ι n) :=
  let t := s.tasks i
  if s.gray = [] ∧ (∀ j, Resting (s.tasks j)) ∧ t.pc = .idle then
    let memory := fillRegion E.fillers s.memory t.youngLab.top t.youngLab.limit
    let memory := fillRegion E.fillers memory t.oldLab.top t.oldLab.limit
    .next ({ s with memory }.setTask i { t with pc := .done, youngLab := .new, oldLab := .new })
  else .waits

def step [Fintype ι] : CopyAction ι → Outcome (CopyTasks ι n)
  | .run i => s.run E i
  | .take i k => s.take E i k
  | .finish i => s.finish E i

end CopyTasks

/-- The tasks, each with the slots of its roots and dirty cards. -/
def copySystem [Fintype ι] (E : MinorHeap) (m : Memory) (old : OldGen n) (slots : ι → List ℕ) :
    System (CopyTasks ι n) (CopyAction ι) where
  start :=
    { memory := m
      tops := ⟨E.toSpace.start, old⟩
      gray := []
      forwarded := []
      tasks := fun i => ⟨.idle, slots i, .new, false, .new, false⟩ }
  step := fun s => s.step E

end Dora.Gc
