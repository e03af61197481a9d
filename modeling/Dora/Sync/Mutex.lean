import Dora.Lib.System
import Dora.Sync.WaitQueue

/-!
# Mutexes

`Mutex` of `dora/stdlib/thread.dora` with the wait list of `dora/src/vm/waitlists.rs` under it. A
step is an access to the word of the mutex or to its owner, taking the lock of the wait lists, or an
access to the wait list under that lock. Assertions that fail, in Dora and in the runtime, are
failing steps.

## Main definitions

* `mutexStep`, `mutexSystem`: any number of threads that call `Mutex::lock` again and again
-/

namespace Dora.Sync

variable {τ : Type} [DecidableEq τ]

def unlocked : Int32 := 0

def locked : Int32 := 1

def lockedContended : Int32 := 2

/-- Where a thread is in `lock`. -/
inductive MutexPc (τ : Type)
  /-- not in `lock` -/
  | outside
  /-- `lockOp`, before its compare-and-exchange -/
  | lockOp
  /-- `lockSlow`, before that of `transitionToLockedContended` -/
  | transition
  /-- `WaitLists::block`, before the lock of the wait lists -/
  | waitLock
  /-- the same, before it loads the word -/
  | waitCheck
  /-- the same, before `append_to_waitlist` -/
  | waitAppend
  /-- `DoraThread::block` -/
  | blocked
  /-- `lockSlow`, before its own compare-and-exchange -/
  | retry
  /-- `lockOp`, before it sets the owner -/
  | takeOwner
  /-- the function that `lock` was called with -/
  | inside
  /-- `unlockOp`, before it resets the owner -/
  | dropOwner
  /-- `unlockOp`, before its exchange -/
  | exchange
  /-- `WaitLists::wakeup`, before the lock of the wait lists -/
  | notifyLock
  /-- the same, before `remove_from_waitlist` -/
  | notifyRemove
  /-- the same, before it updates the entry -/
  | notifyUpdate (entry : HeadAndTail τ) (next : Option τ)
deriving DecidableEq

/-- The mutex, its wait list and the threads. `data` and `owner` are the fields of the mutex (no
owner is the id 0), `waitLock` is the thread that holds the lock of the wait lists, and `entry` is
what they hold for the mutex. `arrivals` and `wakeups` record the threads that have been queued and
woken, in order. -/
structure MutexState (τ : Type) where
  data : Int32
  owner : Option τ
  waitLock : Option τ
  entry : Option (HeadAndTail τ)
  threads : Threads τ
  pc : τ → MutexPc τ
  arrivals : List τ
  wakeups : List τ

namespace MutexState

/-- The thread goes on to `pc`. -/
def goto (s : MutexState τ) (t : τ) (pc : MutexPc τ) : MutexState τ :=
  { s with pc := Function.update s.pc t pc }

/-- The thread takes the lock of the wait lists, or waits for it. -/
def acquire (s : MutexState τ) (t : τ) (pc : MutexPc τ) : Outcome (MutexState τ) :=
  match s.waitLock with
  | none => .next ({ s with waitLock := some t }.goto t pc)
  | some _ => .waits

end MutexState

/-- One atomic step of the thread `t`. -/
def mutexStep (s : MutexState τ) (t : τ) : Outcome (MutexState τ) :=
  match s.pc t with
  | .outside => .next (s.goto t .lockOp)
  | .lockOp =>
    -- let previous = self.data.compareExchange(UNLOCKED, LOCKED)
    if s.data = unlocked then .next ({ s with data := locked }.goto t .takeOwner)
    else if s.data = locked ∨ s.data = lockedContended then .next (s.goto t .transition)
    else .fails
  | .transition =>
    -- self.data.compareExchange(LOCKED, LOCKED_CONTENDED) != UNLOCKED
    if s.data = locked then .next ({ s with data := lockedContended }.goto t .waitLock)
    else if s.data ≠ unlocked then .next (s.goto t .waitLock)
    else .next (s.goto t .retry)
  | .waitLock => s.acquire t .waitCheck
  | .waitCheck =>
    if s.data = lockedContended then .next (s.goto t .waitAppend)
    else .next ({ s with waitLock := none }.goto t .retry)
  | .waitAppend =>
    match appendToWaitlist s.threads t s.entry with
    | none => .fails
    | some (entry, threads) =>
      .next ({ s with
        entry := some entry, threads, waitLock := none, arrivals := s.arrivals ++ [t] }.goto t
          .blocked)
  | .blocked => if (s.threads t).blocking then .waits else .next (s.goto t .retry)
  | .retry =>
    -- let previous = self.data.compareExchange(UNLOCKED, LOCKED_CONTENDED)
    if s.data = unlocked then .next ({ s with data := lockedContended }.goto t .takeOwner)
    else .next (s.goto t .transition)
  | .takeOwner =>
    if s.owner = none then .next ({ s with owner := some t }.goto t .inside) else .fails
  | .inside => .next (s.goto t .dropOwner)
  | .dropOwner =>
    if s.owner = some t then .next ({ s with owner := none }.goto t .exchange) else .fails
  | .exchange =>
    -- let previous = self.data.exchange(UNLOCKED)
    if s.data = locked then .next ({ s with data := unlocked }.goto t .outside)
    else if s.data = lockedContended then
      .next ({ s with data := unlocked }.goto t .notifyLock)
    else .fails
  | .notifyLock => s.acquire t .notifyRemove
  | .notifyRemove =>
    match s.entry with
    | none => .next ({ s with waitLock := none }.goto t .outside)
    | some entry =>
      match removeFromWaitlist s.threads entry.head with
      | none => .fails
      | some (next, threads) =>
        .next ({ s with threads, wakeups := s.wakeups ++ [entry.head] }.goto t
          (.notifyUpdate entry next))
  | .notifyUpdate entry next =>
    .next ({ s with
      entry := next.map fun next => ⟨next, entry.tail⟩, waitLock := none }.goto t .outside)

/-- A new mutex, and threads that have not called it. -/
def mutexSystem (τ : Type) [DecidableEq τ] : System (MutexState τ) τ where
  start :=
    { data := unlocked
      owner := none
      waitLock := none
      entry := none
      threads := fun _ => ⟨false, none⟩
      pc := fun _ => .outside
      arrivals := []
      wakeups := [] }
  step := mutexStep

end Dora.Sync
