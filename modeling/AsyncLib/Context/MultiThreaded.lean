import AsyncLib.Concurrent.BlockingWorkQueue

/-!
# `MultiThreadedWorkQueue`

`async/context/multi_threaded_work_queue.cpp` over the two pools of
`async/concurrent/non_blocking_work_queue.h` and `blocking_work_queue.h`, with the worker loop of
`work_queue_base.h`: how tasks reach a queue or a dynamic thread, where they are executed, and how
`Quiesce` looks for them.

* `Config`, `Home`: the threads of a run by position: the workers of both pools, the thread that calls
  `Quiesce`, other threads of the program, and the dynamic threads as they are started.
* `Thread`: the queue of a worker (`ThreadData`), the tasks that the thread is in, innermost first,
  and the call of `AddTask` or `AddBlockingTask` that its task is in (`Call`). A call reads
  `IsQuiescing` in one step and hands its task over in a later one.
* `step`: the atomic steps. A `PushFront` claims its slot before it fills it, and a `PopBack` fails at a
  slot that is not filled yet. The dynamic threads are those of `BlockingWorkQueue`, and its mutex is
  held between the two steps of `RunBlockingTask`.
* `OnlyTasks`: while `Quiesce` runs, only tasks are active. `NoneBetween`: the condition on the calls
  that are under way when `Quiesce` raises the flag.

Left open: when a blocked worker is notified, how often an idle worker tries to steal, in which order
the queues are visited, and when a push finds its queue full. `Cancel` and the destructor are outside.
-/

namespace AsyncLib

namespace MultiThreadedWorkQueue

open Sys

/-! ## The threads -/

/-- The two thread pools of the queue. -/
inductive Pool where
  | nonBlocking
  | blocking
  deriving DecidableEq, Repr

/-- What a thread is. For a worker this is `PerThread::parent`. -/
inductive Home where
  | worker (pool : Pool)
  /-- The thread that calls `Quiesce`. -/
  | main
  | outside
  /-- The dynamic thread `d` of the blocking pool. -/
  | dynamic (d : Nat)
  deriving DecidableEq, Repr

/-- The sizes of the pools, the other threads, and the bound on dynamic threads. -/
structure Config where
  mNumThreads : Pool → Nat
  /-- The number of other threads of the program. -/
  numOutside : Nat
  mMaxNumDynamicThreads : Nat

namespace Config

variable (cfg : Config)

/-- `mThreadData` of a pool: the positions of its workers. -/
def mThreadData : Pool → List Nat
  | .nonBlocking => List.range' 0 (cfg.mNumThreads .nonBlocking)
  | .blocking => List.range' (cfg.mNumThreads .nonBlocking) (cfg.mNumThreads .blocking)

/-- The position of the thread that calls `Quiesce`. -/
def main : Nat := cfg.mNumThreads .nonBlocking + cfg.mNumThreads .blocking

/-- The position of the first dynamic thread. -/
def first : Nat := cfg.main + 1 + cfg.numOutside

/-- What the thread `t` is. -/
def home (t : Nat) : Home :=
  if t < cfg.mNumThreads .nonBlocking then .worker .nonBlocking
  else if t < cfg.main then .worker .blocking
  else if t = cfg.main then .main
  else if t < cfg.first then .outside
  else .dynamic (t - cfg.first)

end Config

/-- A task, and whether it carries a `PendingTask`. -/
structure Task where
  id : Nat
  counted : Bool
  deriving DecidableEq, Repr

/-- A slot of a queue that a push has claimed; `ready` when it is filled. -/
structure Slot where
  task : Task
  ready : Bool
  deriving DecidableEq, Repr

/-- The call that hands a task over. -/
inductive Callee where
  | addTask
  /-- `AddBlockingTask` with `allow_queuing`. -/
  | enqueueBlockingTask
  /-- `AddBlockingTask` without `allow_queuing`. -/
  | runBlockingTask
  deriving DecidableEq, Repr

/-- Where such a call is. -/
inductive Call where
  /-- `IsQuiescing` was read; the task is not handed over. -/
  | checked (callee : Callee) (isQuiescing : Bool) (task : Task)
  /-- `PushFront` has claimed a slot of the worker `queue`. -/
  | claimed (queue id : Nat)
  deriving DecidableEq, Repr

/-- Where a worker is in `WorkerLoop`. -/
inductive Pc where
  /-- It executes a task, or looks for one. -/
  | running
  /-- In `NonEmptyQueueIndex` after `Prewait`, with the queues that it has not seen yet. -/
  | scan (left : List Nat)
  /-- It is counted in `mBlocked`. -/
  | blocked
  deriving DecidableEq, Repr

/-- A thread, its queue if it is a worker, and the tasks that it executes. -/
structure Thread where
  home : Home
  pc : Pc
  queue : List Slot
  stack : List Task
  call : Option Call
  deriving DecidableEq, Repr

/-- Where `MultiThreadedWorkQueue::Quiesce` is; `looping` in the second half. -/
inductive Quiescing where
  | idle
  /-- In `Quiesce` of a pool, with the queues that `Steal` has not seen since it last found a task. -/
  | steal (pool : Pool) (looping : Bool) (left : List Nat)
  | stopWaiting (looping : Bool)
  | threadExited (looping : Bool)
  | hasPendingTasks
  | returned
  deriving DecidableEq, Repr

/-- The threads and the shared state of the queue. -/
structure St where
  threads : List Thread
  mBlocked : Pool → Nat
  /-- The dynamic threads of the blocking pool. -/
  dynamic : BlockingWorkQueue.St
  /-- The tasks of the calls of `RunBlockingTask`, in order. -/
  given : List Task
  /-- The thread that is in a call of `RunBlockingTask`. -/
  mMutex : Option Nat
  mNumQuiescing : Nat
  mNumPendingTasks : Nat
  quiesce : Quiescing
  submitted : Nat
  finished : List Nat
  /-- The tasks that were given back to the caller. -/
  refused : List Nat

namespace St

/-- The thread `t` changes. -/
def modify (s : St) (t : Nat) (f : Thread → Thread) : St :=
  { s with threads := s.threads.modify t f }

/-- `IsQuiescing`. -/
def isQuiescing (s : St) : Bool := decide (0 < s.mNumQuiescing)

/-- `RunBlockingTask` finds an idle thread, or may start one. -/
def accepts (cfg : Config) (s : St) : Bool :=
  decide ((BlockingWorkQueue.runBlockingTask cfg.mMaxNumDynamicThreads s.dynamic
    s.dynamic.submitted).2 = none)

end St

/-! ## The code -/

/-- `TaskDeque::PopFront`. -/
def popFront : List Slot → Option (Task × List Slot)
  | ⟨x, true⟩ :: rest => some (x, rest)
  | _ => none

/-- `PopBack`. -/
def popBack (queue : List Slot) : Option (Task × List Slot) :=
  match queue.getLast? with
  | some ⟨x, true⟩ => some (x, queue.dropLast)
  | _ => none

/-- `NextTask`. -/
def nextTask : Pool → List Slot → Option (Task × List Slot)
  | .nonBlocking => popFront
  | .blocking => popBack

/-- The queue `j` is one that the thread `t` pushes to with `PushFront`. -/
def PushesFront (cfg : Config) (home : Home) (t j : Nat) : Callee → Prop
  | .addTask => home = .worker .nonBlocking ∧ j = t
  | .enqueueBlockingTask =>
    if home = .worker .blocking then j = t else j ∈ cfg.mThreadData .blocking
  | .runBlockingTask => False

instance (cfg : Config) (home : Home) (t j : Nat) (callee : Callee) :
    Decidable (PushesFront cfg home t j callee) :=
  match callee with
  | .addTask => inferInstanceAs (Decidable (_ ∧ _))
  | .enqueueBlockingTask => inferInstanceAs
    (Decidable (if home = .worker .blocking then j = t else j ∈ cfg.mThreadData .blocking))
  | .runBlockingTask => inferInstanceAs (Decidable False)

namespace Thread

/-- A new thread. -/
def new (home : Home) : Thread := ⟨home, .running, [], [], none⟩

/-- The thread goes on with another call. -/
def setCall (call : Option Call) (th : Thread) : Thread := { th with call }

/-- The thread executes other tasks. -/
def setStack (stack : List Task) (th : Thread) : Thread := { th with stack }

/-- The queue of the thread changes. -/
def setQueue (queue : List Slot) (th : Thread) : Thread := { th with queue }

/-- The thread goes on at another place. -/
def setPc (pc : Pc) (th : Thread) : Thread := { th with pc }

/-- The slots of the task `id` are filled. -/
def fill (id : Nat) (th : Thread) : Thread :=
  { th with queue := th.queue.map fun e => if e.task.id = id then { e with ready := true } else e }

/-- The thread is between two tasks. -/
def Free (th : Thread) : Prop := th.stack = [] ∧ th.call = none

instance (th : Thread) : Decidable th.Free := inferInstanceAs (Decidable (_ ∧ _))

end Thread

open Thread

/-- A step of a thread, with what the source leaves open. -/
inductive Label where
  /-- The thread `t` enters a call and reads `IsQuiescing`. -/
  | call (t : Nat) (callee : Callee)
  /-- `WithPendingTaskCounter`. -/
  | wrap (t : Nat)
  | pushFront (t j : Nat)
  /-- The claimed slot is filled. -/
  | fill (t : Nat)
  | pushBack (t j : Nat)
  /-- No push has succeeded. -/
  | full (t : Nat)
  /-- `RunBlockingTask` up to the release of its mutex. -/
  | runBlockingTask (t : Nat)
  /-- The innermost task of the thread `t` returns. -/
  | finish (t : Nat)
  | nextTask (t : Nat)
  | steal (t j : Nat)
  | prewait (t : Nat)
  /-- `NonEmptyQueueIndex` finds the queue `j` empty. -/
  | emptyQueue (t j : Nat)
  | cancelWait (t j : Nat)
  | block (t : Nat)
  /-- `CommitWait` returns. -/
  | wake (t : Nat)
  /-- The dynamic thread `d` calls the task that it was given. -/
  | doWork (d : Nat)
  | waitNextTask (d : Nat)
  | wakeIdle (d : Nat) (timeout : Bool)
  /-- `Quiescing::Start`. -/
  | start
  /-- `Quiesce` tries to steal from the queue `j`. -/
  | quiesceSteal (j : Nat)
  | allBlocked
  | stopWaiting
  | threadExited
  | hasPendingTasks
  /-- The caller of `Quiesce` goes on. -/
  | leave
  deriving DecidableEq, Repr

/-- The thread may enter a call: from a task, or as a thread of the program. -/
def Callable (s : St) (th : Thread) : Prop :=
  th.pc = .running ∧ th.call = none ∧
    (th.stack ≠ [] ∨ th.home = .outside ∨ th.home = .main ∧ s.quiesce = .idle)

instance (s : St) (th : Thread) : Decidable (Callable s th) :=
  inferInstanceAs (Decidable (_ ∧ _ ∧ (_ ∨ _ ∨ _ ∧ _)))

/-- A step of the thread `t` in a call whose task is not handed over. -/
def stepCall (cfg : Config) (s : St) (t : Nat) (th : Thread) (callee : Callee) (isQuiescing : Bool)
    (x : Task) : Label → Option St
  | .wrap _ =>
    if isQuiescing = true ∧ x.counted = false ∧ (callee = .runBlockingTask → s.accepts cfg = true) then
      some { s.modify t (setCall (some (.checked callee true { x with counted := true }))) with
        mNumPendingTasks := s.mNumPendingTasks + 1 }
    else none
  | .pushFront _ j =>
    if x.counted = isQuiescing ∧ PushesFront cfg th.home t j callee then
      some ((s.modify j fun v => v.setQueue (⟨x, false⟩ :: v.queue)).modify t
        (setCall (some (.claimed j x.id))))
    else none
  | .pushBack _ j =>
    if x.counted = isQuiescing ∧ callee = .addTask ∧ th.home ≠ .worker .nonBlocking ∧
        j ∈ cfg.mThreadData .nonBlocking then
      some ((s.modify j fun v => v.setQueue (v.queue ++ [⟨x, true⟩])).modify t (setCall none))
    else none
  | .full _ =>
    if x.counted = isQuiescing ∧ callee ≠ .runBlockingTask then
      if callee = .addTask ∨ isQuiescing = true then
        some (s.modify t fun th => (th.setCall none).setStack (x :: th.stack))
      else some { s.modify t (setCall none) with refused := x.id :: s.refused }
    else none
  | .runBlockingTask _ =>
    if callee = .runBlockingTask ∧ x.counted = (isQuiescing && s.accepts cfg) then
      (BlockingWorkQueue.step cfg.mMaxNumDynamicThreads s.dynamic .runBlockingTask).map fun d =>
        { s.modify t (setCall none) with
          threads := (s.modify t (setCall none)).threads ++
            (List.range' s.dynamic.threads.length
              (d.threads.length - s.dynamic.threads.length)).map fun d => Thread.new (.dynamic d)
          dynamic := d
          given := s.given ++ [x]
          mMutex := none
          refused := if s.accepts cfg then s.refused else x.id :: s.refused }
    else none
  | _ => none

/-- A step of a worker that has no task. -/
def stepWorker (cfg : Config) (s : St) (t : Nat) (th : Thread) (p : Pool) : Label → Option St
  | .nextTask _ =>
    if th.pc = .running then
      (nextTask p th.queue).bind fun (x, rest) =>
        some ((s.modify t (setQueue rest)).modify t (setStack [x]))
    else none
  | .steal _ j =>
    if th.pc = .running ∧ j ∈ cfg.mThreadData p then
      (s.threads[j]?).bind fun v => (popBack v.queue).bind fun (x, rest) =>
        some ((s.modify j (setQueue rest)).modify t (setStack [x]))
    else none
  | .prewait _ =>
    if th.pc = .running then some (s.modify t (setPc (.scan (cfg.mThreadData p)))) else none
  | .emptyQueue _ j =>
    (s.threads[j]?).bind fun v =>
      match th.pc with
      | .scan left =>
        if j ∈ left ∧ v.queue = [] then some (s.modify t (setPc (.scan (left.erase j)))) else none
      | _ => none
  | .cancelWait _ j =>
    (s.threads[j]?).bind fun v =>
      match th.pc with
      | .scan left => if j ∈ left ∧ v.queue ≠ [] then some (s.modify t (setPc .running)) else none
      | _ => none
  | .block _ =>
    if th.pc = .scan [] then
      some { s.modify t (setPc .blocked) with
        mBlocked := Function.update s.mBlocked p (s.mBlocked p + 1) }
    else none
  | .wake _ =>
    if th.pc = .blocked then
      some { s.modify t (setPc .running) with
        mBlocked := Function.update s.mBlocked p (s.mBlocked p - 1) }
    else none
  | _ => none

/-- What `MultiThreadedWorkQueue::Quiesce` does when `WorkQueueBase::Quiesce` of a pool has returned. -/
def afterPool (cfg : Config) (looping : Bool) : Pool → Quiescing
  | .nonBlocking => .steal .blocking looping (cfg.mThreadData .blocking)
  | .blocking => .stopWaiting looping

/-- A step of `Quiesce`. -/
def stepQuiesce (cfg : Config) (s : St) : Label → Option St
  | .start =>
    if s.quiesce = .idle then
      some { s with
        mNumQuiescing := s.mNumQuiescing + 1
        quiesce := .steal .nonBlocking false (cfg.mThreadData .nonBlocking) }
    else none
  | .quiesceSteal j =>
    match s.quiesce with
    | .steal p looping left =>
      if j ∈ left then
        (s.threads[j]?).bind fun v =>
          match popBack v.queue with
          | some (x, rest) =>
            some { (s.modify j (setQueue rest)).modify cfg.main (setStack [x]) with
              quiesce := .steal p looping (cfg.mThreadData p) }
          | none => some { s with quiesce := .steal p looping (left.erase j) }
      else none
    | _ => none
  | .allBlocked =>
    match s.quiesce with
    | .steal p looping [] =>
      if s.mBlocked p = cfg.mNumThreads p then some { s with quiesce := afterPool cfg looping p }
      else none
    | _ => none
  | .stopWaiting =>
    match s.quiesce with
    | .stopWaiting looping =>
      if s.mMutex = none then
        (BlockingWorkQueue.step cfg.mMaxNumDynamicThreads s.dynamic .quiesce).map fun d =>
          { s with dynamic := d, quiesce := .threadExited looping }
      else none
    | _ => none
  | .threadExited =>
    match s.quiesce with
    | .threadExited _ =>
      if s.mMutex = none then
        (BlockingWorkQueue.step cfg.mMaxNumDynamicThreads s.dynamic .quiesced).map fun d =>
          { s with dynamic := d, quiesce := .hasPendingTasks }
      else none
    | _ => none
  | .hasPendingTasks =>
    if s.quiesce = .hasPendingTasks then
      if s.mNumPendingTasks = 0 then
        some { s with mNumQuiescing := s.mNumQuiescing - 1, quiesce := .returned }
      else some { s with quiesce := .steal .nonBlocking true (cfg.mThreadData .nonBlocking) }
    else none
  | .leave => if s.quiesce = .returned then some { s with quiesce := .idle } else none
  | _ => none

/-- One step; `none` if it is not enabled. -/
def step (cfg : Config) (s : St) (l : Label) : Option St :=
  match l with
  | .call t callee =>
    (s.threads[t]?).bind fun th =>
      if Callable s th ∧ (callee = .runBlockingTask → s.mMutex = none) then
        some { s.modify t (setCall (some (.checked callee s.isQuiescing ⟨s.submitted, false⟩))) with
          mMutex := if callee = .runBlockingTask then some t else s.mMutex
          submitted := s.submitted + 1 }
      else none
  | .wrap t | .pushFront t _ | .pushBack t _ | .full t | .runBlockingTask t =>
    (s.threads[t]?).bind fun th =>
      match th.call with
      | some (.checked callee isQuiescing x) => stepCall cfg s t th callee isQuiescing x l
      | _ => none
  | .fill t =>
    (s.threads[t]?).bind fun th =>
      match th.call with
      | some (.claimed j id) => some ((s.modify j (Thread.fill id)).modify t (setCall none))
      | _ => none
  | .finish t =>
    (s.threads[t]?).bind fun th =>
      match th.stack, th.call with
      | x :: rest, none =>
        let s' := { s.modify t (setStack rest) with
          mNumPendingTasks := if x.counted then s.mNumPendingTasks - 1 else s.mNumPendingTasks
          finished := x.id :: s.finished }
        match th.home, rest with
        | .dynamic d, [] =>
          (BlockingWorkQueue.step cfg.mMaxNumDynamicThreads s.dynamic (.returnTask d)).map fun d =>
            { s' with dynamic := d }
        | _, _ => some s'
      | _, _ => none
  | .nextTask t | .steal t _ | .prewait t | .emptyQueue t _ | .cancelWait t _ | .block t | .wake t =>
    (s.threads[t]?).bind fun th =>
      match th.home with
      | .worker p => if th.Free then stepWorker cfg s t th p l else none
      | _ => none
  | .doWork d =>
    match s.dynamic.threads[d]? with
    | some (.call k) =>
      (s.given[k]?).bind fun x =>
        (BlockingWorkQueue.step cfg.mMaxNumDynamicThreads s.dynamic (.call d)).map fun dynamic =>
          { s.modify (cfg.first + d) (setStack [x]) with dynamic }
    | _ => none
  | .waitNextTask d =>
    if s.mMutex = none then
      (BlockingWorkQueue.step cfg.mMaxNumDynamicThreads s.dynamic (.waitNextTask d)).map fun dynamic =>
        { s with dynamic }
    else none
  | .wakeIdle d timeout =>
    if s.mMutex = none then
      (BlockingWorkQueue.step cfg.mMaxNumDynamicThreads s.dynamic (.wake d timeout)).map fun dynamic =>
        { s with dynamic }
    else none
  | .start | .quiesceSteal _ | .allBlocked | .stopWaiting | .threadExited | .hasPendingTasks | .leave =>
    (s.threads[cfg.main]?).bind fun th => if th.Free then stepQuiesce cfg s l else none

/-- All workers are running, and nothing was submitted. -/
def init (cfg : Config) : St where
  threads := (List.range cfg.first).map fun t => Thread.new (cfg.home t)
  mBlocked _ := 0
  dynamic := BlockingWorkQueue.init
  given := []
  mMutex := none
  mNumQuiescing := 0
  mNumPendingTasks := 0
  quiesce := .idle
  submitted := 0
  finished := []
  refused := []

/-- All runs of the queue. -/
def sys (cfg : Config) : Sys St Label := Sys.ofFun (init cfg) (step cfg)

/-! ## What runs are about -/

/-- From the call of `Quiesce` to its return only tasks are active. -/
def OnlyTasks (cfg : Config) (s : St) : Label → Prop
  | .start => ∀ th ∈ s.threads, th.home = .outside → th.Free
  | .call t _ => s.quiesce ≠ .idle → cfg.home t ≠ .outside
  | _ => True

instance (cfg : Config) (s : St) (l : Label) : Decidable (OnlyTasks cfg s l) := by
  cases l <;> unfold OnlyTasks <;> infer_instance

/-- The call of the thread `t` stays in the pool of `t`, or holds the mutex of the dynamic threads. -/
def Call.Own (t : Nat) (home : Home) : Call → Prop
  | .checked .addTask _ _ => home = .worker .nonBlocking
  | .checked .enqueueBlockingTask _ _ => home = .worker .blocking
  | .checked .runBlockingTask _ _ => True
  | .claimed j _ => j = t

instance (t : Nat) (home : Home) (call : Call) : Decidable (call.Own t home) := by
  rcases call with ⟨_ | _ | _, _, _⟩ | _ <;> unfold Call.Own <;> infer_instance

/-- When `Quiesce` raises the flag, no call from one pool to another is between its check of the flag
and the end of its push. -/
def NoneBetween (s : St) (l : Label) : Prop :=
  l = .start → ∀ (t : Nat) (th : Thread) (call : Call), s.threads[t]? = some th →
    th.call = some call → call.Own t th.home

instance (s : St) (l : Label) : Decidable (NoneBetween s l) :=
  decidable_of_iff (l = .start → ∀ p ∈ s.threads.zipIdx, ∀ call ∈ p.1.call, call.Own p.2 p.1.home) <| by
    refine imp_congr_right fun _ => ⟨fun h t th call ht hc => ?_, fun h p hp call hc => ?_⟩
    · exact h (th, t) (List.mem_zipIdx_iff_getElem?.mpr ht) call hc
    · exact h p.2 p.1 call (List.mem_zipIdx_iff_getElem?.mp hp) hc

/-- Every task that was handed over has been executed. -/
def Quiesced (s : St) : Prop := ∀ k < s.submitted, k ∈ s.finished ∨ k ∈ s.refused

end MultiThreadedWorkQueue

end AsyncLib
