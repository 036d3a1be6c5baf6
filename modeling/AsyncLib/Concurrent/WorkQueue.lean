import AsyncLib.Concurrent.EventCountSpec
import AsyncLib.Concurrent.Spinning
import AsyncLib.Concurrent.Victims

/-!
# The workers of `WorkQueueBase`

`async/concurrent/work_queue_base.h`, with `AddTask` of `non_blocking_work_queue.h` and
`EnqueueBlockingTask` of `blocking_work_queue.h`: `n` workers run `WorkerLoop`, their tasks and other
threads submit tasks, other threads call `Quiesce`, and the pool is destroyed, under sequentially
consistent interleaving. `Cancel` is not called, so that `mCancelled` is false.

* `Pc`: where a thread is. `Thread`: that, and the tasks that it is executing, innermost first.
* `St`: the members of the pool, the threads, and the record of the tasks.
* `move`: one step of a thread inside the pool's code. `step`: with the steps of the tasks, of the
  program and of the destructor.
* The queues are lists. A pop may fail without a reason, a push may find its queue full, and `Empty`
  may deny that an empty queue is empty (`Choice.ok`).
* The event count is a machine of `EventCountSpec`. The spinning state is the word of `Spinning`.

The mutex and the condition variable that `Quiesce` waits on are its condition alone, and the counter
of pending tasks that a task may be wrapped with is left out.
-/

namespace AsyncLib

namespace WorkQueue

open Sys Spinning

/-! ## The threads -/

/-- Which pool it is. -/
inductive Derived where
  | nonBlockingWorkQueue
  | blockingWorkQueue
  deriving DecidableEq, Repr

/-- The threads of a run by position: the workers, and then other threads. -/
structure Config where
  derived : Derived
  mNumThreads : Nat
  /-- The number of other threads of the program. -/
  numOutside : Nat
  /-- Which of the two machines the event count is. -/
  takeover : Bool

/-- A call of `Steal`. -/
inductive Site where
  /-- The first one of `WorkerLoop`. -/
  | first
  /-- In the spin loop. -/
  | spin (i : Nat)
  /-- After `StopSpinning` has returned true. -/
  | extra
  /-- In `Quiesce`. -/
  | quiesce
  deriving DecidableEq, Repr

/-- Where a thread is. -/
inductive Pc where
  /-- `mDerived.NextTask(q)`. -/
  | nextTask
  /-- In `Steal`, with the queues that are left. -/
  | steal (site : Site) (victims : List Nat)
  /-- `NumActiveThreads()` in `StartSpinning`. -/
  | activeThreads
  | startLoad
  | startCas (spinning : Word64)
  /-- The condition of the spin loop. -/
  | spin (i : Nat) (t : Option Nat)
  | stopLoad (t : Option Nat)
  | stopCas (t : Option Nat) (spinning : Word64)
  /-- `mEventCount.Prewait()`. -/
  | prewait
  /-- In the first `NonEmptyQueueIndex` of `WaitForWork`, with the queues that are left. -/
  | scan (victims : List Nat)
  /-- `mEventCount.CancelWait()`, the queue `victim` is not empty. -/
  | cancelWait (victim : Nat)
  | stealVictim (victim : Nat)
  /-- `mBlocked.fetch_add(1)`. -/
  | addBlocked
  | readDone
  /-- `mBlocked.load() == mNumThreads` after `mDone`. -/
  | doneBlocked
  | commitWait
  | parked
  /-- `mBlocked.fetch_sub(1)`. -/
  | subBlocked
  /-- `mEventCount.CancelWait()` in the shutdown. -/
  | cancelDone
  /-- In the second `NonEmptyQueueIndex`. -/
  | rescan (victims : List Nat)
  /-- `mEventCount.Notify(true)`. -/
  | notifyDone
  | returned
  /-- In a task, or, with no task, in the program. -/
  | run
  /-- `skipNotify = q.Empty()`. -/
  | checkEmpty (task : Nat)
  | pushFront (skipNotify : Bool) (task : Nat)
  | pushBack (victim task : Nat)
  /-- The pushes of `EnqueueBlockingTask`, with the queues that are left. -/
  | enqueue (isQuiescing : Bool) (victims : List Nat) (task : Nat)
  | notifyLoad
  | notifyCas (spinning : Word64)
  /-- `mEventCount.Notify(false)`. -/
  | notify
  /-- `AllBlocked()` in `Quiesce`. -/
  | allBlocked
  deriving DecidableEq, Repr

/-- A thread of the pool, or one that only submits tasks. -/
structure Thread where
  pc : Pc
  /-- The tasks that it is executing. -/
  stack : List Nat
  /-- It has called `Quiesce`. -/
  quiescing : Bool
  deriving DecidableEq, Repr

/-- Where the destructor is. -/
inductive Destructor where
  | idle
  /-- `mEventCount.Notify(true)`. -/
  | notify
  | join
  deriving DecidableEq, Repr

/-- The record of the tasks. -/
structure Log where
  /-- The number of the tasks that were submitted. -/
  submitted : Nat
  /-- The tasks that were put into a queue, or that a worker executes in its own call. -/
  accepted : List Nat
  /-- The tasks that were given back to the caller. -/
  refused : List Nat
  /-- The tasks whose execution has begun. -/
  called : List Nat
  finished : List Nat
  deriving DecidableEq, Repr

/-- The shared state of the pool, and its threads. -/
structure St where
  /-- The queues of `mThreadData`, their fronts first. -/
  queues : List (List Nat)
  mBlocked : UInt32
  mDone : Bool
  mSpinningState : Word64
  mEventCount : EventCount.Waiting
  threads : List Thread
  destructor : Destructor
  log : Log
  deriving DecidableEq

/-! ## The members -/

/-- `kMinActiveThreadsToStartSpinning`. -/
def kMinActiveThreadsToStartSpinning : UInt32 := 4

/-- The number of rounds in the spin loop. -/
def kSpinCount : Nat := 5000

namespace Config

variable (cfg : Config)

/-- `spin_count`. -/
def spinCount : Nat := if 0 < cfg.mNumThreads then kSpinCount / cfg.mNumThreads else 0

/-- The queues that `Steal` asks, in this order, until it finds a task. -/
def stealVictims (r : UInt32) : List Nat :=
  (WorkQueueBase.steal cfg.mNumThreads r.toNat fun _ _ => (none : Option Nat)).2

/-- The queues that `NonEmptyQueueIndex` asks, until one is not empty. -/
def emptyVictims (r : UInt32) : List Nat :=
  (WorkQueueBase.nonEmptyQueueIndex cfg.mNumThreads r.toNat fun _ _ => true).2

/-- The queues that `EnqueueBlockingTask` pushes to, until one is not full. -/
def enqueueVictims (r : UInt32) : List Nat :=
  (WorkQueueBase.enqueueBlockingTask cfg.mNumThreads r.toNat fun _ _ => some ()).2

end Config

/-- `PopFront`. -/
def popFront : List Nat → Option (Nat × List Nat)
  | [] => none
  | x :: q => some (x, q)

/-- `PopBack`. -/
def popBack (q : List Nat) : Option (Nat × List Nat) := q.getLast?.map fun x => (x, q.dropLast)

/-- `NextTask` of the two pools. -/
def Config.nextTask (cfg : Config) : List Nat → Option (Nat × List Nat) :=
  match cfg.derived with
  | .nonBlockingWorkQueue => popFront
  | .blockingWorkQueue => popBack

/-- How the free choices of a step fall. -/
structure Choice where
  /-- The next number of `rng`. -/
  r : UInt32
  /-- An operation on a queue, or a weak compare-exchange, does not fail without a reason. -/
  ok : Bool
  /-- The thread that `EventCount` chooses. -/
  pick : Option Nat
  deriving DecidableEq, Repr

namespace St

/-- The thread `t` was `th` and moves to `pc`. -/
def goto (s : St) (t : Nat) (th : Thread) (pc : Pc) : St :=
  { s with threads := s.threads.set t { th with pc } }

/-- The thread `t` calls the task `x`. -/
def exec (s : St) (t : Nat) (th : Thread) (x : Nat) : St :=
  { s with
    threads := s.threads.set t { th with pc := .run, stack := x :: th.stack }
    log := { s.log with called := x :: s.log.called } }

/-- A pop from the queue `j`. -/
def pop (s : St) (take : List Nat → Option (Nat × List Nat)) (j : Nat) (ok : Bool) :
    Option (Nat × St) :=
  if ok then
    ((s.queues[j]?).bind take).map fun p => (p.1, { s with queues := s.queues.set j p.2 })
  else none

/-- `Empty` of the queue `j`. -/
def empty (s : St) (j : Nat) (ok : Bool) : Bool := decide (s.queues[j]? = some []) && ok

/-- The task `x` is put into the queue `j`. -/
def push (s : St) (put : List Nat → List Nat) (j x : Nat) : Option St :=
  (s.queues[j]?).map fun q =>
    { s with
      queues := s.queues.set j (put q)
      log := { s.log with accepted := x :: s.log.accepted } }

/-- An operation of `mEventCount`. -/
def event (s : St) (cfg : Config) (pick : Option Nat) (e : EventCount.Event) : Option St :=
  (s.mEventCount.apply cfg.takeover pick e).map fun w => { s with mEventCount := w }

/-- A write to `mSpinningState`. -/
def store (s : St) (w : Word64) : St := { s with mSpinningState := w }

/-- `(*inlineTask)()`. -/
def inline (s : St) (cfg : Config) (t : Nat) (th : Thread) (x : Nat) : St :=
  { s.exec t th x with
    log := { s.log with
      called := x :: s.log.called
      accepted := if t < cfg.mNumThreads then x :: s.log.accepted else s.log.accepted } }

/-- `Steal` has returned the task `x`. -/
def found (s : St) (t : Nat) (th : Thread) (x : Nat) : Site → St
  | .spin i => s.goto t th (.spin (i + 1) (some x))
  | .first | .extra | .quiesce => s.exec t th x

end St

/-- Where a thread goes on when `Steal` has found nothing. -/
def missed : Site → Pc
  | .first => .activeThreads
  | .spin i => .spin (i + 1) none
  | .extra => .prewait
  | .quiesce => .allBlocked

/-- Where `StartSpinning` goes on with the word `spinning`. -/
def startWith (spinning : Word64) : Pc :=
  if (decode spinning).full then .prewait else .startCas spinning

/-- Where `IsNotifyParkedThreadRequired` goes on with the word `spinning`. -/
def notifyWith (spinning : Word64) : Pc :=
  let state := decode spinning
  if state.mNumNoNotification = state.mNumSpinning then .notify else .notifyCas spinning

/-! ## The steps -/

/-- One step of the thread `t`, which is `th`. -/
def move (cfg : Config) (s : St) (t : Nat) (th : Thread) (c : Choice) : Option St :=
  match th.pc with
  | .nextTask =>
    match s.pop cfg.nextTask t c.ok with
    | some (x, s) => some (s.exec t th x)
    | none => some (s.goto t th (.steal .first (cfg.stealVictims c.r)))
  | .steal site [] => some (s.goto t th (missed site))
  | .steal site (victim :: victims) =>
    match s.pop popBack victim c.ok with
    | some (x, s) => some (s.found t th x site)
    | none => some (s.goto t th (.steal site victims))
  | .activeThreads =>
    if kMinActiveThreadsToStartSpinning < UInt32.ofNat cfg.mNumThreads - s.mBlocked then
      some (s.goto t th .prewait)
    else some (s.goto t th .startLoad)
  | .startLoad => some (s.goto t th (startWith s.mSpinningState))
  | .startCas spinning =>
    if c.ok = true ∧ s.mSpinningState = spinning then
      some ((s.store (decode spinning).started.encode).goto t th (.spin 0 none))
    else some (s.goto t th (startWith s.mSpinningState))
  | .spin i task =>
    if i < cfg.spinCount ∧ task = none then
      some (s.goto t th (.steal (.spin i) (cfg.stealVictims c.r)))
    else some (s.goto t th (.stopLoad task))
  | .stopLoad task => some (s.goto t th (.stopCas task s.mSpinningState))
  | .stopCas task spinning =>
    if c.ok = true ∧ s.mSpinningState = spinning then
      let s := s.store (decode spinning).stopped.encode
      match task with
      | some x => some (s.exec t th x)
      | none =>
        if (decode spinning).hasNoNotifyTask then
          some (s.goto t th (.steal .extra (cfg.stealVictims c.r)))
        else some (s.goto t th .prewait)
    else some (s.goto t th (.stopCas task s.mSpinningState))
  | .prewait =>
    (s.event cfg c.pick (.prewait t)).map fun s => s.goto t th (.scan (cfg.emptyVictims c.r))
  | .scan [] => some (s.goto t th .addBlocked)
  | .scan (victim :: victims) =>
    if s.empty victim c.ok then some (s.goto t th (.scan victims))
    else some (s.goto t th (.cancelWait victim))
  | .cancelWait victim =>
    (s.event cfg c.pick (.cancel t)).map fun s => s.goto t th (.stealVictim victim)
  | .stealVictim victim =>
    match s.pop popBack victim c.ok with
    | some (x, s) => some (s.exec t th x)
    | none => some (s.goto t th .nextTask)
  | .addBlocked => some { s.goto t th .readDone with mBlocked := s.mBlocked + 1 }
  | .readDone => some (s.goto t th (if s.mDone then .doneBlocked else .commitWait))
  | .doneBlocked =>
    if s.mBlocked = UInt32.ofNat cfg.mNumThreads then some (s.goto t th .cancelDone)
    else some (s.goto t th .commitWait)
  | .commitWait =>
    if t ∈ s.mEventCount.notified then
      (s.event cfg c.pick (.take t)).map fun s => s.goto t th .subBlocked
    else (s.event cfg c.pick (.park t)).map fun s => s.goto t th .parked
  | .parked => (s.event cfg c.pick (.wake t)).map fun s => s.goto t th .subBlocked
  | .subBlocked => some { s.goto t th .nextTask with mBlocked := s.mBlocked - 1 }
  | .cancelDone =>
    (s.event cfg c.pick (.cancel t)).map fun s => s.goto t th (.rescan (cfg.emptyVictims c.r))
  | .rescan [] => some (s.goto t th .notifyDone)
  | .rescan (victim :: victims) =>
    if s.empty victim c.ok then some (s.goto t th (.rescan victims))
    else some (s.goto t th .subBlocked)
  | .notifyDone => (s.event cfg c.pick (.notify true)).map fun s => s.goto t th .returned
  | .checkEmpty task => some (s.goto t th (.pushFront (s.empty t c.ok) task))
  | .pushFront skipNotify task =>
    if c.ok then
      (s.push (fun q => task :: q) t task).map fun s =>
        s.goto t th (if skipNotify then .run else .notifyLoad)
    else some (s.inline cfg t th task)
  | .pushBack victim task =>
    if c.ok then
      (s.push (fun q => q ++ [task]) victim task).map fun s => s.goto t th .notifyLoad
    else some (s.inline cfg t th task)
  | .enqueue isQuiescing [] task =>
    if isQuiescing then some (s.inline cfg t th task)
    else
      some { s.goto t th .run with log := { s.log with refused := task :: s.log.refused } }
  | .enqueue isQuiescing (victim :: victims) task =>
    if c.ok then
      (s.push (fun q => task :: q) victim task).map fun s => s.goto t th .notifyLoad
    else some (s.goto t th (.enqueue isQuiescing victims task))
  | .notifyLoad => some (s.goto t th (notifyWith s.mSpinningState))
  | .notifyCas spinning =>
    if c.ok = true ∧ s.mSpinningState = spinning then
      some ((s.store (decode spinning).skipped.encode).goto t th .run)
    else some (s.goto t th (notifyWith s.mSpinningState))
  | .notify => (s.event cfg c.pick (.notify false)).map fun s => s.goto t th .run
  | .allBlocked =>
    if s.mBlocked = UInt32.ofNat cfg.mNumThreads then
      some { s with threads := s.threads.set t { th with pc := .run, quiescing := false } }
    else none
  | .run | .returned => none

/-- A step of a thread, with what the source leaves open, or an event of the environment. -/
inductive Label where
  /-- The thread `t` goes on in the pool's code. -/
  | move (t : Nat) (c : Choice)
  /-- The thread `t` submits a task; `isQuiescing` is what `IsQuiescing` returns. -/
  | addTask (t : Nat) (isQuiescing : Bool) (c : Choice)
  /-- The innermost task of the thread `t` returns. -/
  | finish (t : Nat) (c : Choice)
  /-- The thread `t` calls `Quiesce`. -/
  | quiesce (t : Nat) (c : Choice)
  /-- `mDone = true` in the destructor. -/
  | destroy
  /-- The destructor calls `mEventCount.Notify(true)`. -/
  | notifyAll (c : Choice)
  deriving DecidableEq, Repr

/-- Where a call of `AddTask` or `EnqueueBlockingTask` by the thread `t` begins. -/
def submit (cfg : Config) (t : Nat) (isQuiescing : Bool) (r : UInt32) (task : Nat) : Pc :=
  match cfg.derived with
  | .nonBlockingWorkQueue =>
    if t < cfg.mNumThreads then .checkEmpty task
    else .pushBack (WorkQueueBase.fastReduce r.toNat cfg.mNumThreads) task
  | .blockingWorkQueue =>
    .enqueue isQuiescing (if t < cfg.mNumThreads then [t] else cfg.enqueueVictims r) task

/-- Where the thread `t` goes on when a task has returned and `rest` are the tasks around it. -/
def resume (cfg : Config) (t : Nat) (quiescing : Bool) (r : UInt32) (rest : List Nat) : Pc :=
  if rest ≠ [] then .run
  else if t < cfg.mNumThreads then .nextTask
  else if quiescing then .steal .quiesce (cfg.stealVictims r)
  else .run

/-- One step of the pool; `none` if it is not enabled. -/
def step (cfg : Config) (s : St) : Label → Option St
  | .move t c => (s.threads[t]?).bind fun th => move cfg s t th c
  | .addTask t isQuiescing c =>
    (s.threads[t]?).bind fun th =>
      if th.pc = .run then
        some { s.goto t th (submit cfg t isQuiescing c.r s.log.submitted) with
          log := { s.log with submitted := s.log.submitted + 1 } }
      else none
  | .finish t c =>
    (s.threads[t]?).bind fun th =>
      if th.pc = .run then
        match th.stack with
        | x :: rest =>
          some { s with
            threads := s.threads.set t ⟨resume cfg t th.quiescing c.r rest, rest, th.quiescing⟩
            log := { s.log with finished := x :: s.log.finished } }
        | [] => none
      else none
  | .quiesce t c =>
    (s.threads[t]?).bind fun th =>
      if th.pc = .run ∧ th.stack = [] then
        some { s with
          threads := s.threads.set t ⟨.steal .quiesce (cfg.stealVictims c.r), [], true⟩ }
      else none
  | .destroy =>
    if s.destructor = .idle then some { s with mDone := true, destructor := .notify } else none
  | .notifyAll c =>
    if s.destructor = .notify then
      (s.event cfg c.pick (.notify true)).map fun s => { s with destructor := .join }
    else none

/-- A new pool. -/
def init (cfg : Config) : St where
  queues := List.replicate cfg.mNumThreads []
  mBlocked := 0
  mDone := false
  mSpinningState := 0
  mEventCount := ⟨∅, ∅, ∅⟩
  threads := List.replicate cfg.mNumThreads ⟨.nextTask, [], false⟩ ++
    List.replicate cfg.numOutside ⟨.run, [], false⟩
  destructor := .idle
  log := ⟨0, [], [], [], []⟩

/-- All runs of the pool. -/
def sys (cfg : Config) : Sys St Label := Sys.ofFun (init cfg) (step cfg)

end WorkQueue

end AsyncLib
