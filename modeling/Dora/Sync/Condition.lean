import Dora.Lib.System
import Dora.Sync.WaitQueue

/-!
# Conditions

`Condition` of `dora/stdlib/thread.dora` with the wait lists of `dora/src/vm/waitlists.rs`. Threads
call `wait`, `notifyOne` and `notifyAll`, and lock and unlock mutexes. Of a mutex only its calls
into the wait lists are part of the model, and whether it makes them is up to the action: its word
may have any value at any time.

## Main definitions

* `WaitLists`: the queues of all objects
* `conditionStep`, `conditionSystem`: an atomic step of a thread, and the system
-/

namespace Dora.Sync

open Function (update update_of_ne)

/-! ## Wait lists -/

section WaitLists

variable {κ τ : Type} [DecidableEq κ] [DecidableEq τ]

/-- The map from objects to entries, and the blocking data of the threads. `arrivals` and `wakeups`
record the threads that have been queued for an object and woken, in order. -/
structure WaitLists (κ τ : Type) where
  entries : κ → Option (HeadAndTail τ)
  threads : Threads τ
  arrivals : κ → List τ
  wakeups : κ → List τ

namespace WaitLists

section

variable (w : WaitLists κ τ)

/-- `append_to_waitlist`. -/
def append (t : τ) (k : κ) : Option (WaitLists κ τ) := do
  let (entry, threads) ← appendToWaitlist w.threads t (w.entries k)
  return { w with
    entries := update w.entries k (some entry)
    threads
    arrivals := update w.arrivals k (w.arrivals k ++ [t]) }

/-- `remove_from_waitlist` on a thread of the queue of `k`. -/
def remove (t : τ) (k : κ) : Option (Option τ × WaitLists κ τ) := do
  let (next, threads) ← removeFromWaitlist w.threads t
  return (next, { w with
    threads, wakeups := update w.wakeups k (w.wakeups k ++ [t]) })

/-- `insert` and `remove` of the map. -/
def setEntry (k : κ) (entry : Option (HeadAndTail τ)) : WaitLists κ τ :=
  { w with entries := update w.entries k entry }

/-- The queues behind the blocking data and the history. The entries are not part of this, since a
thread under the lock changes them in steps of their own. -/
structure Describes (queues : κ → List τ) : Prop where
  links : Links w.threads queues
  history : ∀ k, w.arrivals k = w.wakeups k ++ queues k

end

variable {w : WaitLists κ τ} {queues : κ → List τ} {t : τ} {k : κ}

theorem Describes.append (h : w.Describes queues) (ht : ∀ k, t ∉ queues k)
    (hentry : w.entries k = entryOf (queues k)) :
    ∃ w', w.append t k = some w' ∧ w'.Describes (update queues k (queues k ++ [t])) ∧
      w'.entries = update w.entries k (entryOf (queues k ++ [t])) := by
  obtain ⟨entry, threads, happend, hentry', hlinks⟩ := h.links.append ht k
  refine ⟨{ w with
    entries := update w.entries k (some entry), threads,
    arrivals := update w.arrivals k (w.arrivals k ++ [t]) }, ?_, ⟨hlinks, fun k' => ?_⟩, ?_⟩
  · simp [WaitLists.append, hentry, happend]
  · by_cases hk : k' = k
    · subst hk
      simp [h.history]
    · simp [update_of_ne hk, h.history]
  · rw [hentry']

theorem Describes.remove (h : w.Describes queues) {q : List τ} (hq : queues k = t :: q) :
    ∃ w', w.remove t k = some (q.head?, w') ∧ w'.Describes (update queues k q) ∧
      w'.entries = w.entries := by
  obtain ⟨hremove, hlinks⟩ := h.links.remove hq
  refine ⟨{ w with
    threads := update w.threads t ⟨false, none⟩,
    wakeups := update w.wakeups k (w.wakeups k ++ [t]) }, ?_, ⟨hlinks, fun k' => ?_⟩, rfl⟩
  · simp [WaitLists.remove, hremove]
  · by_cases hk : k' = k
    · subst hk
      simp [h.history, hq]
    · simp [update_of_ne hk, h.history]

end WaitLists

end WaitLists

/-! ## The system -/

variable {μ τ : Type} [DecidableEq μ] [DecidableEq τ]

/-- The objects with a wait list: the condition and the mutexes. -/
inductive WaitKey (μ : Type)
  | condition
  | mutex (m : μ)
deriving DecidableEq

/-- Where a thread is. The argument `after` of `WaitLists::wakeup` is the mutex of the call of
`wait` that it belongs to, if it belongs to one. -/
inductive ConditionPc (μ τ : Type)
  /-- in none of the functions -/
  | outside
  /-- `wait` in `WaitLists::enqueue`, before the lock of the wait lists -/
  | enqueueLock (m : μ)
  /-- the same, before it stores 1 in `waiters` -/
  | enqueueStore (m : μ)
  /-- the same, before `append_to_waitlist` -/
  | enqueueAppend (m : μ)
  /-- `wait`, before `mtx.unlockOp` -/
  | unlockOp (m : μ)
  /-- `wait` in `DoraThread::block` -/
  | block (m : μ)
  /-- `lockOp` of the mutex, in `wait` or in `lock` -/
  | lockOp (m : μ)
  /-- the same in `WaitLists::block`, before the lock of the wait lists -/
  | waitLock (m : μ)
  /-- the same, before it loads the word of the mutex -/
  | waitCheck (m : μ)
  /-- the same, before `append_to_waitlist` -/
  | waitAppend (m : μ)
  /-- the same in `DoraThread::block` -/
  | waitBlocked (m : μ)
  /-- `notifyOne`, before it loads `waiters` -/
  | notifyOne
  /-- `WaitLists::wakeup`, before the lock of the wait lists -/
  | wakeupLock (k : WaitKey μ) (after : Option μ)
  /-- the same, before `remove_from_waitlist` -/
  | wakeupRemove (k : WaitKey μ) (after : Option μ)
  /-- the same, before it updates the entry -/
  | wakeupUpdate (k : WaitKey μ) (after : Option μ) (entry : HeadAndTail τ) (next : Option τ)
  /-- `notifyAll`, before it loads `waiters` -/
  | notifyAll
  /-- the same, before it sets `waiters` to 0 -/
  | clear
  /-- `WaitLists::wakeup_all`, before the lock of the wait lists -/
  | wakeupAllLock
  /-- the same, before it removes the entry -/
  | wakeupAllRemove
  /-- the loop of `wakeup_all` -/
  | wakeupAllLoop (next : Option τ)
deriving DecidableEq

/-- What a thread outside calls. -/
inductive ConditionCall (μ : Type)
  | wait (m : μ)
  | notifyOne
  | notifyAll
  | lock (m : μ)
  | unlock (m : μ)

/-- The thread that takes the next step, what it calls if it is outside, and what it finds in the
word of a mutex if it looks at one. -/
structure ConditionAction (μ τ : Type) where
  thread : τ
  call : ConditionCall μ
  contended : Bool

structure ConditionState (μ τ : Type) where
  waiters : Int32
  waitLock : Option τ
  lists : WaitLists (WaitKey μ) τ
  pc : τ → ConditionPc μ τ

/-- Where a call begins. An `unlockOp` outside of `wait` that does not notify is no step here. -/
def ConditionCall.pc : ConditionCall μ → ConditionPc μ τ
  | wait m => .enqueueLock m
  | notifyOne => .notifyOne
  | notifyAll => .notifyAll
  | lock m => .lockOp m
  | unlock m => .wakeupLock (.mutex m) none

/-- Where `wakeup` returns to. -/
def ConditionPc.back : Option μ → ConditionPc μ τ
  | none => outside
  | some m => block m

namespace ConditionState

variable (s : ConditionState μ τ)

/-- The thread goes on to `pc`. -/
def goto (t : τ) (pc : ConditionPc μ τ) : ConditionState μ τ :=
  { s with pc := update s.pc t pc }

/-- The thread takes the lock of the wait lists, or waits for it. -/
def acquire (t : τ) (pc : ConditionPc μ τ) :
    Outcome (ConditionState μ τ) :=
  match s.waitLock with
  | none => .next ({ s with waitLock := some t }.goto t pc)
  | some _ => .waits

/-- The thread is queued and gives the lock of the wait lists back. -/
def append (t : τ) (k : WaitKey μ) (pc : ConditionPc μ τ) :
    Outcome (ConditionState μ τ) :=
  match s.lists.append t k with
  | none => .fails
  | some lists => .next ({ s with lists, waitLock := none }.goto t pc)

/-- `DoraThread::block`. -/
def block (t : τ) (pc : ConditionPc μ τ) : Outcome (ConditionState μ τ) :=
  if (s.lists.threads t).blocking then .waits else .next (s.goto t pc)

end ConditionState

/-- One atomic step. -/
def conditionStep (s : ConditionState μ τ) (a : ConditionAction μ τ) :
    Outcome (ConditionState μ τ) :=
  match s.pc a.thread with
  | .outside => .next (s.goto a.thread a.call.pc)
  | .enqueueLock m => s.acquire a.thread (.enqueueStore m)
  | .enqueueStore m => .next ({ s with waiters := 1 }.goto a.thread (.enqueueAppend m))
  | .enqueueAppend m => s.append a.thread .condition (.unlockOp m)
  | .unlockOp m =>
    .next (s.goto a.thread (if a.contended then .wakeupLock (.mutex m) (some m) else .block m))
  | .block m => s.block a.thread (.lockOp m)
  | .lockOp m => .next (s.goto a.thread (if a.contended then .waitLock m else .outside))
  | .waitLock m => s.acquire a.thread (.waitCheck m)
  | .waitCheck m =>
    if a.contended then .next (s.goto a.thread (.waitAppend m))
    else .next ({ s with waitLock := none }.goto a.thread (.lockOp m))
  | .waitAppend m => s.append a.thread (.mutex m) (.waitBlocked m)
  | .waitBlocked m => s.block a.thread (.lockOp m)
  | .notifyOne =>
    .next (s.goto a.thread (if s.waiters = 0 then .outside else .wakeupLock .condition none))
  | .wakeupLock k after => s.acquire a.thread (.wakeupRemove k after)
  | .wakeupRemove k after =>
    match s.lists.entries k with
    | none => .next ({ s with waitLock := none }.goto a.thread (.back after))
    | some entry =>
      match s.lists.remove entry.head k with
      | none => .fails
      | some (next, lists) =>
        .next ({ s with lists }.goto a.thread (.wakeupUpdate k after entry next))
  | .wakeupUpdate k after entry next =>
    .next ({ s with
      lists := s.lists.setEntry k (next.map fun next => ⟨next, entry.tail⟩), waitLock := none }.goto
        a.thread (.back after))
  | .notifyAll => .next (s.goto a.thread (if s.waiters = 0 then .outside else .clear))
  | .clear => .next ({ s with waiters := 0 }.goto a.thread .wakeupAllLock)
  | .wakeupAllLock => s.acquire a.thread .wakeupAllRemove
  | .wakeupAllRemove =>
    .next ({ s with lists := s.lists.setEntry .condition none }.goto a.thread
      (.wakeupAllLoop ((s.lists.entries .condition).map HeadAndTail.head)))
  | .wakeupAllLoop none => .next ({ s with waitLock := none }.goto a.thread .outside)
  | .wakeupAllLoop (some u) =>
    match s.lists.remove u .condition with
    | none => .fails
    | some (next, lists) => .next ({ s with lists }.goto a.thread (.wakeupAllLoop next))

/-- A new condition, and threads that have not called anything. -/
def conditionSystem (μ τ : Type) [DecidableEq μ] [DecidableEq τ] :
    System (ConditionState μ τ) (ConditionAction μ τ) where
  start :=
    { waiters := 0
      waitLock := none
      lists :=
        { entries := fun _ => none
          threads := fun _ => ⟨false, none⟩
          arrivals := fun _ => []
          wakeups := fun _ => [] }
      pc := fun _ => .outside }
  step := conditionStep

end Dora.Sync
