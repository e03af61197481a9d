import Mathlib.Data.Fintype.EquivFin
import Dora.Lib.System

/-!
# Parallel marking

`dora/src/gc/pmarking.rs` as a system of marking tasks. A step is one operation on a queue, one
access to a mark bit or one access to the counter of the terminator. The deques and the injector are
linearizable: stealing a batch is one step. Loading a mark bit and storing it are two steps, since
`try_mark_non_atomic` is two accesses.

## Main definitions

* `markingStep`, `markingSystem`: the step of a task, and the system
-/

namespace Dora.Gc

variable {ι α : Type}

/-- The heap region, and the references of an object in the order in which they are visited. The
heap does not change while it is marked. -/
structure MarkingHeap (α : Type) where
  contains : α → Bool
  fields : α → List α

def SEGMENT_SIZE : ℕ := 64

/-- Where a task is. While it visits the references of the object `object`, `rest` are those that
it has not yet seen. -/
inductive MarkingPc (α : Type)
  /-- `pop_local` -/
  | popLocal
  /-- `pop_worker` -/
  | popWorker
  /-- `pop_global` -/
  | popGlobal
  /-- the loop of `steal`, with its remaining rounds -/
  | steal (rounds : ℕ)
  /-- `trace`, before it loads the mark bit -/
  | trace (object : α) (rest : List α)
  /-- `try_mark_non_atomic`, before it stores the mark bit -/
  | mark (object field : α) (rest : List α)
  /-- `trace`, before it pushes the object it has marked -/
  | push (object field : α) (rest : List α)
  /-- the loop of `defensive_push` -/
  | share (object : α) (targetLen : ℕ) (rest : List α)
  /-- `try_terminate` -/
  | tryTerminate
  /-- `zero_or_increase_workers`, before it loads the counter -/
  | load
  /-- the loop of `zero_or_increase_workers`, with the value that was loaded last -/
  | increase (nworkers : ℕ)
  /-- after the loop of `run` -/
  | returned
deriving DecidableEq

/-- A task: its segment and its deque, the last pushed object first, and the number of objects it
has pushed since it last shared some. -/
structure MarkingTask (α : Type) where
  segment : List α
  worker : List α
  marked : ℕ
  pc : MarkingPc α

structure MarkingState (ι α : Type) where
  marks : α → Bool
  injector : List α
  nworkers : ℕ
  tasks : ι → MarkingTask α

/-- The task that takes the next step. The other fields say what is left open: the victim of
`steal`, the number of objects that a batch has beyond the one that is popped, and whether an
operation on a queue has to be retried. -/
structure MarkingAction (ι : Type) where
  task : ι
  victim : ι
  batch : ℕ
  retry : Bool

namespace MarkingTask

def goto (t : MarkingTask α) (pc : MarkingPc α) : MarkingTask α := { t with pc }

/-- `run` begins to visit the references of an object. -/
def visit (H : MarkingHeap α) (t : MarkingTask α) (object : α) : MarkingTask α :=
  t.goto (.trace object (H.fields object))

/-- The end of `trace`, with `defensive_push`. -/
def push (t : MarkingTask α) (object field : α) (rest : List α) : MarkingTask α :=
  if t.segment.length < SEGMENT_SIZE then
    let t := { t with segment := field :: t.segment, marked := t.marked + 1 }
    if t.marked > 256 then
      if t.segment.length > 4 then t.goto (.share object (t.segment.length / 2) rest)
      else { t with marked := 0 }.goto (.trace object rest)
    else t.goto (.trace object rest)
  else { t with worker := field :: t.worker }.goto (.trace object rest)

end MarkingTask

variable [DecidableEq ι] [DecidableEq α]

namespace MarkingState

def setTask (s : MarkingState ι α) (i : ι) (t : MarkingTask α) : MarkingState ι α :=
  { s with tasks := Function.update s.tasks i t }

end MarkingState

/-- One atomic step, with the number of tasks. -/
def markingStep (H : MarkingHeap α) (count : ℕ) (s : MarkingState ι α) (a : MarkingAction ι) :
    Outcome (MarkingState ι α) :=
  let i := a.task
  let t := s.tasks i
  match t.pc with
  | .popLocal =>
    match t.segment with
    | object :: segment => .next (s.setTask i ({ t with segment }.visit H object))
    | [] => .next (s.setTask i (t.goto .popWorker))
  | .popWorker =>
    match t.worker with
    | object :: worker => .next (s.setTask i ({ t with worker }.visit H object))
    | [] => .next (s.setTask i (t.goto .popGlobal))
  | .popGlobal =>
    if a.retry then .next s
    else
      match s.injector with
      | object :: rest =>
        .next ({ s with injector := rest.drop a.batch }.setTask i
          ({ t with worker := rest.take a.batch ++ t.worker }.visit H object))
      | [] => .next (s.setTask i (t.goto (.steal (2 * count))))
  | .steal rounds =>
    if count = 1 ∨ rounds = 0 then .next (s.setTask i (t.goto .tryTerminate))
    else if a.victim = i ∨ a.retry then .next s
    else
      match (s.tasks a.victim).worker.reverse with
      | object :: rest =>
        .next ((s.setTask a.victim
          { s.tasks a.victim with worker := (rest.drop a.batch).reverse }).setTask i
          ({ t with worker := rest.take a.batch ++ t.worker }.visit H object))
      | [] => .next (s.setTask i (t.goto (.steal (rounds - 1))))
  | .trace _ [] => .next (s.setTask i (t.goto .popLocal))
  | .trace object (field :: rest) =>
    if H.contains field ∧ s.marks field = false then
      .next (s.setTask i (t.goto (.mark object field rest)))
    else .next (s.setTask i (t.goto (.trace object rest)))
  | .mark object field rest =>
    .next ({ s with marks := Function.update s.marks field true }.setTask i
      (t.goto (.push object field rest)))
  | .push object field rest => .next (s.setTask i (t.push object field rest))
  | .share object targetLen rest =>
    match t.segment with
    | value :: segment =>
      if targetLen < t.segment.length then
        .next ({ s with injector := s.injector ++ [value] }.setTask i { t with segment })
      else .next (s.setTask i ({ t with marked := 0 }.goto (.trace object rest)))
    | [] => .next (s.setTask i ({ t with marked := 0 }.goto (.trace object rest)))
  | .tryTerminate =>
    if count = 1 then .next (s.setTask i (t.goto .returned))
    else
      .next ({ s with nworkers := s.nworkers - 1 }.setTask i
        (t.goto (if s.nworkers = 1 then .returned else .load)))
  | .load => .next (s.setTask i (t.goto (.increase s.nworkers)))
  | .increase nworkers =>
    if nworkers = 0 then .next (s.setTask i (t.goto .returned))
    else if s.nworkers = nworkers then
      .next ({ s with nworkers := nworkers + 1 }.setTask i (t.goto .popLocal))
    else .next (s.setTask i (t.goto (.increase s.nworkers)))
  | .returned => .waits

/-- The loop of `start` over the roots. -/
def pushRoots (H : MarkingHeap α) : List α → (α → Bool) → List α → (α → Bool) × List α
  | [], marks, injector => (marks, injector)
  | root :: roots, marks, injector =>
    if H.contains root ∧ marks root = false then
      pushRoots H roots (Function.update marks root true) (injector ++ [root])
    else pushRoots H roots marks injector

/-- Marking with the given roots, from the given mark bits. -/
def markingSystem [Fintype ι] (H : MarkingHeap α) (roots : List α) (marks : α → Bool) :
    System (MarkingState ι α) (MarkingAction ι) where
  start :=
    { marks := (pushRoots H roots marks []).1
      injector := (pushRoots H roots marks []).2
      nworkers := Fintype.card ι
      tasks := fun _ => ⟨[], [], 0, .popLocal⟩ }
  step := markingStep H (Fintype.card ι)

end Dora.Gc
