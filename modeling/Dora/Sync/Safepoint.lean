import Dora.Lib.System

/-!
# Safepoints

Threads and `stop_the_world` of `dora/src/safepoint.rs` and `dora/src/threads.rs`. Threads run, poll
for safepoints, park and unpark, register new threads, leave, and stop the world. A step is one
atomic access to the state or to the flag of a thread, or one critical section of the barrier. The
lock of the list of threads is held over many steps by `stop_the_world` and for one step by the
others. A thread that waits on a condition variable is asleep until it is notified.

## Main definitions

* `safepointStep`, `safepointSystem`: an atomic step of a thread, and the system
-/

namespace Dora.Sync

inductive ThreadState
  | running
  | parked
  | safepointRequested
  | parkedSafepoint
  | safepoint
deriving DecidableEq

def ThreadState.isParked : ThreadState → Bool
  | parked | parkedSafepoint => true
  | _ => false

/-- What a thread parks for: the callback of a `parked_scope`, or one of the functions that park on
their own. -/
inductive Purpose
  | scope
  | stop
  | add
  | remove
deriving DecidableEq

/-- Where a thread is. The lists are the threads that the loops of `stop_threads` and
`resume_threads` still have before them. -/
inductive SafepointPc (τ : Type)
  /-- not created -/
  | absent
  /-- removed -/
  | gone
  /-- code that may access the heap -/
  | mutator
  /-- `safepoint_slow`, before it swaps the state -/
  | safepointSwap
  /-- `wait_in_safepoint`, before the barrier -/
  | safepointEnter
  /-- `wait_in_safepoint`, asleep -/
  | safepointAsleep
  /-- `wait_in_safepoint`, notified -/
  | safepointCheck
  /-- `park`, before its compare-and-exchange -/
  | park (k : Purpose)
  /-- `park_slow`, before its compare-and-exchange -/
  | parkSlow (k : Purpose)
  /-- `park_slow`, before `notify_park` -/
  | notifyPark (k : Purpose)
  /-- the callback of a `parked_scope` -/
  | parked
  /-- `add_thread`, before the lock of the threads -/
  | addLock
  /-- `remove_current_thread`, before the lock of the threads -/
  | removeLock
  /-- `stop_the_world`, before the lock of the threads -/
  | stopLock
  /-- `unpark`, before its compare-and-exchange -/
  | unpark
  /-- `unpark_slow`, before its compare-and-exchange -/
  | unparkSlow
  /-- `wait_in_unpark`, before the barrier or notified -/
  | unparkWait
  /-- `wait_in_unpark`, asleep -/
  | unparkAsleep
  /-- `stop_the_world`, before it looks at the number of threads -/
  | stopLen
  /-- `stop_threads`, before `arm` -/
  | arm
  /-- `stop_threads`, setting the flags -/
  | setRequested (rest : List τ)
  /-- `stop_threads`, before it loads the state of a thread -/
  | load (rest : List τ) (running : ℕ)
  /-- `stop_threads`, before the compare-and-exchange for a thread -/
  | cas (u : τ) (current : ThreadState) (rest : List τ) (running : ℕ)
  /-- `wait_until_threads_stopped`, before the barrier -/
  | waitStopped (running : ℕ)
  /-- `wait_until_threads_stopped`, asleep -/
  | stoppedAsleep (running : ℕ)
  /-- `wait_until_threads_stopped`, notified -/
  | stoppedCheck (running : ℕ)
  /-- the operation, with or without other threads -/
  | operation (alone : Bool)
  /-- `resume_threads`, clearing the flags -/
  | clearRequested (rest : List τ)
  /-- `resume_threads`, swapping the states -/
  | swapStates (rest : List τ)
  /-- `resume_threads`, before `disarm` -/
  | disarm
  /-- `stop_the_world`, before it releases the lock of the threads -/
  | unlock
deriving DecidableEq

/-- What a thread in mutator code does next. -/
inductive SafepointCall
  | poll
  | parkedScope
  | stopTheWorld
  | addThread
  | exit
deriving DecidableEq

/-- The thread that takes the next step, what it calls if it is in mutator code, and the new thread
that it registers if it registers one. -/
structure SafepointAction (τ : Type) where
  thread : τ
  call : SafepointCall
  fresh : τ

/-- The list of threads and its lock, the data of the barrier, and the threads with their flags
`safepoint_requested`, states and places. -/
structure SafepointState (τ : Type) where
  registered : List τ
  lock : Option τ
  armed : Bool
  stopped : ℕ
  requested : τ → Bool
  state : τ → ThreadState
  pc : τ → SafepointPc τ

variable {τ : Type} [DecidableEq τ]

/-- Where a thread goes on once it is parked. -/
def Purpose.pc : Purpose → SafepointPc τ
  | scope => .parked
  | stop => .stopLock
  | add => .addLock
  | remove => .removeLock

namespace SafepointPc

/-- What `cv_notify` does. Only the thread that holds the lock of the threads waits for it. -/
def notified : SafepointPc τ → SafepointPc τ
  | stoppedAsleep running => stoppedCheck running
  | pc => pc

/-- What `cv_wakeup` does. -/
def wokenUp : SafepointPc τ → SafepointPc τ
  | safepointAsleep => safepointCheck
  | unparkAsleep => unparkWait
  | pc => pc

end SafepointPc

namespace SafepointState

variable (s : SafepointState τ)

/-- The thread goes on to `pc`. -/
def goto (t : τ) (pc : SafepointPc τ) : SafepointState τ :=
  { s with pc := Function.update s.pc t pc }

/-- The thread `u` gets a new state. -/
def setState (u : τ) (state : ThreadState) : SafepointState τ :=
  { s with state := Function.update s.state u state }

/-- `DoraThread::new` for a thread that starts parked. -/
def create (u : τ) : SafepointState τ :=
  { s with
    requested := Function.update s.requested u false
    state := Function.update s.state u .parked
    pc := Function.update s.pc u .unpark }

/-- One more thread has stopped, in `notify_park` and `wait_in_safepoint`. -/
def notifyStopped : SafepointState τ :=
  { s with stopped := s.stopped + 1, pc := fun u => (s.pc u).notified }

/-- The loop of `wait_until_threads_stopped`, and the assertion after it. -/
def checkStopped (t : τ) (running : ℕ) : Outcome (SafepointState τ) :=
  if s.stopped < running then .next (s.goto t (.stoppedAsleep running))
  else if s.stopped = running then .next (s.goto t (.operation false))
  else .fails

/-- The body of the inner loop of `stop_threads`, with the state of the thread `u` that was loaded
last. -/
def claim (t u : τ) (rest : List τ) (running : ℕ) :
    ThreadState → Outcome (SafepointState τ)
  | .running =>
    if s.state u = .running then
      .next ((s.setState u .safepointRequested).goto t (.load rest (running + 1)))
    else .next (s.goto t (.cas u (s.state u) rest running))
  | .parked =>
    if s.state u = .parked then
      .next ((s.setState u .parkedSafepoint).goto t (.load rest running))
    else .next (s.goto t (.cas u (s.state u) rest running))
  | .safepoint => .next (s.goto t (.load rest (running + 1)))
  | _ => .fails

end SafepointState

/-- Where a call of mutator code leads to. -/
def SafepointCall.pc (requested : Bool) : SafepointCall → SafepointPc τ
  | poll => if requested then .safepointSwap else .mutator
  | parkedScope => .park .scope
  | stopTheWorld => .park .stop
  | addThread => .park .add
  | exit => .park .remove

/-- One atomic step. -/
def safepointStep (s : SafepointState τ) (a : SafepointAction τ) : Outcome (SafepointState τ) :=
  let t := a.thread
  match s.pc t with
  | .absent | .gone | .safepointAsleep | .unparkAsleep | .stoppedAsleep _ => .waits
  | .mutator => .next (s.goto t (a.call.pc (s.requested t)))
  | .safepointSwap =>
    if s.state t = .safepointRequested ∨ s.state t = .running then
      .next ((s.setState t .safepoint).goto t .safepointEnter)
    else .fails
  | .safepointEnter =>
    if s.armed then .next (s.notifyStopped.goto t .safepointAsleep) else .fails
  | .safepointCheck =>
    if s.armed then .next (s.goto t .safepointAsleep) else .next (s.goto t .unpark)
  | .park k =>
    if s.state t = .running then .next ((s.setState t .parked).goto t k.pc)
    else .next (s.goto t (.parkSlow k))
  | .parkSlow k =>
    if s.state t = .safepointRequested then
      .next ((s.setState t .parkedSafepoint).goto t (.notifyPark k))
    else .fails
  | .notifyPark k => if s.armed then .next (s.notifyStopped.goto t k.pc) else .fails
  | .parked => .next (s.goto t .unpark)
  | .addLock =>
    -- the new thread is created here, parked, and may run as soon as it is in the list
    match s.lock with
    | some _ => .waits
    | none =>
      if s.pc a.fresh ≠ .absent then .waits
      else if ((s.create a.fresh).state a.fresh).isParked then
        .next ({ s.create a.fresh with registered := s.registered ++ [a.fresh] }.goto t .unpark)
      else .fails
  | .removeLock =>
    match s.lock with
    | some _ => .waits
    | none => .next ({ s with registered := s.registered.filter (· ≠ t) }.goto t .gone)
  | .stopLock =>
    match s.lock with
    | some _ => .waits
    | none => .next ({ s with lock := some t }.goto t .stopLen)
  | .unpark =>
    if s.state t = .parked then .next ((s.setState t .running).goto t .mutator)
    else .next (s.goto t .unparkSlow)
  | .unparkSlow =>
    if s.state t = .parked then .next ((s.setState t .running).goto t .mutator)
    else if s.state t = .parkedSafepoint then .next (s.goto t .unparkWait)
    else .fails
  | .unparkWait =>
    if s.armed then .next (s.goto t .unparkAsleep) else .next (s.goto t .unparkSlow)
  | .stopLen =>
    if s.registered.length = 1 then .next (s.goto t (.operation true)) else .next (s.goto t .arm)
  | .arm =>
    if s.armed then .fails
    else .next ({ s with armed := true, stopped := 0 }.goto t (.setRequested s.registered))
  | .setRequested [] => .next (s.goto t (.load s.registered 0))
  | .setRequested (u :: rest) =>
    .next ({ s with requested := Function.update s.requested u true }.goto t (.setRequested rest))
  | .load [] running => .next (s.goto t (.waitStopped running))
  | .load (u :: rest) running => .next (s.goto t (.cas u (s.state u) rest running))
  | .cas u current rest running => s.claim t u rest running current
  | .waitStopped running => if s.armed then s.checkStopped t running else .fails
  | .stoppedCheck running => s.checkStopped t running
  | .operation true => .next (s.goto t .unlock)
  | .operation false => .next (s.goto t (.clearRequested s.registered))
  | .clearRequested [] => .next (s.goto t (.swapStates s.registered))
  | .clearRequested (u :: rest) =>
    .next ({ s with requested := Function.update s.requested u false }.goto t
      (.clearRequested rest))
  | .swapStates [] => .next (s.goto t .disarm)
  | .swapStates (u :: rest) =>
    if s.state u = .safepoint ∨ s.state u = .parkedSafepoint then
      .next ((s.setState u .parked).goto t (.swapStates rest))
    else .fails
  | .disarm =>
    if s.armed then
      .next ({ s with armed := false, pc := fun u => (s.pc u).wokenUp }.goto t .unlock)
    else .fails
  | .unlock => .next ({ s with lock := none }.goto t .unpark)

/-- The main thread runs, and no other thread has been created. -/
def safepointSystem [Inhabited τ] : System (SafepointState τ) (SafepointAction τ) where
  start :=
    { registered := [default]
      lock := none
      armed := false
      stopped := 0
      requested := fun _ => false
      state := fun u => if u = default then .running else .parked
      pc := fun u => if u = default then .mutator else .absent }
  step := safepointStep

end Dora.Sync
