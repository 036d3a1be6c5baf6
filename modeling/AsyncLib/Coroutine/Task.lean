import Mathlib.Logic.Function.Basic
import Mathlib.Logic.Relation

/-!
# `Task` and `SyncWait`

`async/coroutine/task.h` and `async/coroutine/coroutine_waitable_task.h`: coroutines that own and await
each other, on a thread that waits and the workers of a pool.

* `Body`: what the body of a coroutine still has to do. Its variables are `Task`s, named by their
  position: first the parameters, then the locals.
* `Frame`, `Machine`, `Machine.step`: coroutine frames with their promises, resumed by symmetric
  transfer. The step is `none` where the code has undefined behaviour or a failed assertion: a coroutine
  that was destroyed, or is done, is resumed, a frame is destroyed twice, or an empty promise is read.
* `St`, `St.step`: `SyncWait` of a `Task`, and the end of that `Task`.
* `eval`: what a body means: a task is a procedure that the first `co_await` calls, and whose outcome
  is kept.

Values are copied where the code moves them. A coroutine takes tasks by value, and awaits tasks that it
owns; one that takes a reference to a task (as `ScheduleOn` does) has no `Body`.
-/

namespace AsyncLib

namespace TaskPromise

/-! ## Bodies -/

/-- An exception, of `await_resume` or of other code. -/
inductive Exception (E : Type) where
  | runtimeError (what : String)
  | thrown (e : E)
  deriving DecidableEq, Repr

/-- What a promise keeps: `kAvaliable` or `kException`. -/
abbrev Result (V E : Type) := Except (Exception E) V

/-- What `await_resume` of an empty `Task` throws. -/
def emptyCoroutine {V E : Type} : Result V E :=
  .error (.runtimeError "empty coroutine is not accepted!")

/-- The rest of the body of a coroutine. `S` is the state that the bodies share. -/
inductive Body (S V E : Type) where
  | coReturn (v : V)
  | throw (e : Exception E)
  /-- Other code. -/
  | act (f : S → S) (k : S → Body S V E)
  /-- A new local: the call of a coroutine function, whose parameters are moved from variables. -/
  | call (args : List Nat) (child : Body S V E) (k : Body S V E)
  /-- `co_await t`. The body goes on with its value or, in a handler, with its exception. -/
  | coAwait (t : Nat) (k : Result V E → Body S V E)
  /-- `co_await t.when_ready()`. -/
  | whenReady (t : Nat) (k : Body S V E)
  /-- `t.is_ready()`. -/
  | isReady (t : Nat) (k : Bool → Body S V E)
  /-- A new local that is moved from `t`. -/
  | move (t : Nat) (k : Body S V E)
  /-- `t = std::move(other)`. -/
  | assign (t other : Nat) (k : Body S V E)
  /-- `co_await scheduler.Schedule()`. -/
  | schedule (k : Body S V E)

/-- The variables `args` are moved from, one after the other; a variable that was moved from is
`null`. -/
def moveOut {α : Type} (null : α) : List Nat → List α → List α × List α
  | [], vars => ([], vars)
  | t :: args, vars =>
    let rest := moveOut null args (vars.set t null)
    (vars.getD t null :: rest.1, rest.2)

/-! ## What a body means -/

/-- A variable: an empty task, the outcome of a task, or what its first `co_await` is going to do. -/
inductive Thunk (S V E : Type) where
  | null
  | done (r : Result V E)
  | delayed (run : S → Result V E × S)

variable {S V E : Type}

/-- `is_ready` of a variable. -/
def Thunk.isReady : Thunk S V E → Bool
  | .delayed _ => false
  | _ => true

/-- What `co_await` gives, what it leaves in the variable, and the state after it. -/
def Thunk.force (s : S) : Thunk S V E → Result V E × Thunk S V E × S
  | .null => (emptyCoroutine, .null, s)
  | .done r => (r, .done r, s)
  | .delayed run => ((run s).1, .done (run s).1, (run s).2)

/-- The outcome of a body with these variables. -/
def eval : Body S V E → List (Thunk S V E) → S → Result V E × S
  | .coReturn v, _, s => (.ok v, s)
  | .throw e, _, s => (.error e, s)
  | .act f k, vars, s => eval (k s) vars (f s)
  | .call args child k, vars, s =>
    let p := moveOut .null args vars
    eval k (p.2 ++ [.delayed (eval child p.1)]) s
  | .coAwait t k, vars, s =>
    let p := (vars.getD t .null).force s
    eval (k p.1) (vars.set t p.2.1) p.2.2
  | .whenReady t k, vars, s =>
    let p := (vars.getD t .null).force s
    eval k (vars.set t p.2.1) p.2.2
  | .isReady t k, vars, s => eval (k (vars.getD t .null).isReady) vars s
  | .move t k, vars, s => eval k (vars.set t .null ++ [vars.getD t .null]) s
  | .assign t other k, vars, s =>
    if t = other ∨ vars.length ≤ t then eval k vars s
    else eval k ((vars.set other .null).set t (vars.getD other .null)) s
  | .schedule k, vars, s => eval k vars s

/-! ## Coroutine frames -/

/-- A `coroutine_handle`: of the coroutine of `make_waitable_task`, or of a `Task`. -/
inductive Handle where
  | waitable
  | task (h : Nat)
  deriving DecidableEq, Repr

/-- Where a coroutine is. -/
inductive Point (S V E : Type) where
  /-- At `initial_suspend`. -/
  | initial (b : Body S V E)
  | running (b : Body S V E)
  /-- In `co_await` of the coroutine `x`. -/
  | awaiting (x : Nat) (k : Result V E → Body S V E)
  /-- In `co_await` of `when_ready`. -/
  | waiting (k : Body S V E)
  /-- The body is left with `r`, and its locals are destroyed. -/
  | closing (r : Result V E)
  /-- At `final_suspend`. -/
  | done

/-- A coroutine frame with its promise. The first `params` variables are its parameters. -/
structure Frame (S V E : Type) where
  point : Point S V E
  params : Nat
  tasks : List (Option Nat)
  mContinuation : Option Handle := none
  result : Option (Result V E) := none

/-- What the thread that executes coroutines does. -/
inductive Control where
  | resume (h : Handle)
  /-- `destroy` of coroutines, by the coroutine `owner` or by the caller of `SyncWait`. -/
  | destroy (todo : List Nat) (owner : Option Nat)
  /-- `resume()` has returned to its caller. -/
  | returned
  deriving DecidableEq, Repr

/-- The coroutines, the thread that executes them, and the pool. -/
structure Machine (S V E : Type) where
  frames : Nat → Option (Frame S V E)
  next : Nat
  control : Control
  /-- The operations that a pool is going to resume. -/
  pool : List Nat
  state : S
  /-- The frames that were destroyed, in order. -/
  destroyed : List Nat

/-- `Task::is_ready`, of the coroutine. -/
def Frame.isDone (f : Frame S V E) : Bool :=
  match f.point with
  | .done => true
  | _ => false

/-- The destructors of variables, the last first. -/
def owned (tasks : List (Option Nat)) : List Nat := (tasks.filterMap id).reverse

namespace Machine

/-- The frame of `h` becomes `f`. -/
def put (m : Machine S V E) (h : Nat) (f : Frame S V E) : Machine S V E :=
  { m with frames := Function.update m.frames h (some f) }

/-- `promise().get()`; it asserts that the promise is not empty. -/
def get (m : Machine S V E) (x : Nat) : Option (Result V E) := (m.frames x).bind Frame.result

/-- `await_suspend`: the coroutine at `p` suspends, and `x` is resumed. -/
def awaitSuspend (m : Machine S V E) (h x : Nat) (f g : Frame S V E) (p : Point S V E) :
    Machine S V E :=
  ({ m with control := .resume (.task x) }.put h { f with point := p }).put x
    { g with mContinuation := some (.task h) }

/-- The body is left with `r`. -/
def close (m : Machine S V E) (h : Nat) (f : Frame S V E) (r : Result V E) : Machine S V E :=
  { m with control := .destroy (owned (f.tasks.drop f.params)) (some h) }.put h
    { f with point := .closing r, tasks := f.tasks.take f.params }

/-- One operation of the body of `h`. -/
def exec (m : Machine S V E) (h : Nat) (f : Frame S V E) : Body S V E → Option (Machine S V E)
  | .coReturn v => some (m.close h f (.ok v))
  | .throw e => some (m.close h f (.error e))
  | .act act k =>
    some ({ m with state := act m.state }.put h { f with point := .running (k m.state) })
  | .call args child k =>
    let p := moveOut none args f.tasks
    some (({ m with next := m.next + 1 }.put h
      { f with point := .running k, tasks := p.2 ++ [some m.next] }).put m.next
      { point := .initial child, params := p.1.length, tasks := p.1 })
  | .coAwait t k =>
    match f.tasks.getD t none with
    | none => some (m.put h { f with point := .running (k emptyCoroutine) })
    | some x => (m.frames x).bind fun g =>
      if g.isDone then (m.get x).map fun r => m.put h { f with point := .running (k r) }
      else some (m.awaitSuspend h x f g (.awaiting x k))
  | .whenReady t k =>
    match f.tasks.getD t none with
    | none => some (m.put h { f with point := .running k })
    | some x => (m.frames x).bind fun g =>
      if g.isDone then some (m.put h { f with point := .running k })
      else some (m.awaitSuspend h x f g (.waiting k))
  | .isReady t k =>
    match f.tasks.getD t none with
    | none => some (m.put h { f with point := .running (k true) })
    | some x => (m.frames x).map fun g => m.put h { f with point := .running (k g.isDone) }
  | .move t k =>
    some (m.put h
      { f with point := .running k, tasks := f.tasks.set t none ++ [f.tasks.getD t none] })
  | .assign t other k =>
    if t = other ∨ f.tasks.length ≤ t then some (m.put h { f with point := .running k })
    else
      some ({ m with control := .destroy (owned [f.tasks.getD t none]) (some h) }.put h
        { f with
          point := .running k
          tasks := (f.tasks.set other none).set t (f.tasks.getD other none) })
  | .schedule k =>
    some ({ m with control := .returned, pool := m.pool ++ [h] }.put h { f with point := .running k })

/-- The coroutine `h` with the frame `f` is resumed, or goes on. -/
def resume (m : Machine S V E) (h : Nat) (f : Frame S V E) : Option (Machine S V E) :=
  match f.point with
  | .initial b => some (m.put h { f with point := .running b })
  | .running b => m.exec h f b
  | .awaiting x k => (m.get x).map fun r => m.put h { f with point := .running (k r) }
  | .waiting k => some (m.put h { f with point := .running k })
  | .closing r =>
    f.mContinuation.map fun c =>
      { m with control := .resume c }.put h { f with point := .done, result := some r }
  | .done => none

/-- A step of the thread that executes coroutines. -/
def step (m : Machine S V E) : Option (Machine S V E) :=
  match m.control with
  | .resume .waitable => none
  | .resume (.task h) => (m.frames h).bind fun f => m.resume h f
  | .destroy [] owner =>
    some { m with
      control := match owner with
        | some h => .resume (.task h)
        | none => .returned }
  | .destroy (x :: todo) owner => (m.frames x).map fun f =>
    { m with
      frames := Function.update m.frames x none
      control := .destroy (owned f.tasks ++ todo) owner
      destroyed := m.destroyed ++ [x] }
  | .returned =>
    -- a worker of the pool takes an operation
    match m.pool with
    | [] => none
    | h :: pool => some { m with control := .resume (.task h), pool := pool }

end Machine

/-! ## `SyncWait` -/

/-- Where the coroutine of `make_waitable_task` is. -/
inductive Waitable where
  | initial
  | awaiting (x : Nat)
  | done
  deriving DecidableEq, Repr

/-- The machine, and `SyncWait`. -/
structure St (S V E : Type) where
  machine : Machine S V E
  waitable : Waitable
  /-- `mData`, or `mException`. -/
  data : Option (Result V E)
  mIsSet : Bool
  /-- The `Task` that is awaited; its owner destroys it after `SyncWait`. -/
  task : Option Nat

/-- `yield_value` or `unhandled_exception`, and `mEvent->Set()`. -/
def St.notify (s : St S V E) (r : Result V E) : St S V E :=
  { s with
    machine := { s.machine with control := .returned }
    waitable := .done
    data := some r
    mIsSet := true }

/-- `make_waitable_task`: `co_yield co_await task`. -/
def St.resumeWaitable (s : St S V E) : Option (St S V E) :=
  match s.waitable with
  | .initial =>
    match s.task with
    | none => some (s.notify emptyCoroutine)
    | some x => (s.machine.frames x).bind fun g =>
      if g.isDone then (s.machine.get x).map s.notify
      else
        some { s with
          waitable := .awaiting x
          machine := { s.machine with control := .resume (.task x) }.put x
            { g with mContinuation := some .waitable } }
  | .awaiting x => (s.machine.get x).map s.notify
  | .done => none

/-- A step of the machine, or of `SyncWait` and its caller. -/
def St.step (s : St S V E) : Option (St S V E) :=
  match s.machine.control with
  | .resume .waitable => s.resumeWaitable
  | .returned =>
    if s.machine.pool = [] ∧ s.mIsSet = true then
      s.task.map fun x =>
        { s with machine := { s.machine with control := .destroy [x] none }, task := none }
    else s.machine.step.map fun m => { s with machine := m }
  | _ => s.machine.step.map fun m => { s with machine := m }

/-- `SyncWait` of a new coroutine, or of an empty `Task`. -/
def start (task : Option (Body S V E)) (s : S) : St S V E where
  machine :=
    { frames := fun h => if h = 0 then task.map fun b => ⟨.initial b, 0, [], none, none⟩ else none
      next := if task.isSome then 1 else 0
      control := .resume .waitable
      pool := []
      state := s
      destroyed := [] }
  waitable := .initial
  data := none
  mIsSet := false
  task := task.map fun _ => 0

/-- The outcome of `co_await` of a new coroutine, or of an empty `Task`. -/
def evalTask (task : Option (Body S V E)) (s : S) : Result V E × S :=
  match task with
  | none => (emptyCoroutine, s)
  | some b => eval b [] s

end TaskPromise

end AsyncLib
