import AsyncLib.Lib.System
import AsyncLib.Lib.Agenda
import AsyncLib.Context.Heap
import AsyncLib.Runtime.Wiring

/-!
# `GraphExecutor`

`async/runtime/graph.cpp`: one run of a built graph, as interleaved atomic steps of the calling
thread, the workers, the threads that resolve values, and the caller who drops results.

* `Op`: a point of the executor's code that touches shared memory. `Frame`: one call of
  `ProcessReadyKernels` with its vector of ready kernels and what the call still has to execute. A
  thread is a stack of frames: a closure that runs inside `NotifyAvailable` is a frame on top.
* `Reg`: `AsyncValueInfo::mValue`, and how the pointer came there.
* `Shared`: what the threads share. `exec`: the effect of one operation on it.
* A kernel is an arbitrary choice of results (`Outcome`): each is a new value that is available,
  resolved later or indirect, or one of its own arguments; it returns no other value. The work that
  resolves a value later holds a reference to it (`promised`), as the kernel's copy of
  `AllocateResultAt` does. An indirect value is resolved by forwarding it to a new value.
* `step`, `init`, `sys`: the whole system. `log` and `returned` record the kernels processed and the
  values that kernels returned.

What is not in the model: the allocator, the sizes of machine integers in vectors, and the caller's
other use of the values it holds. Counts are natural numbers and integers: right while a kernel has
fewer than 2^31 arguments (`std::atomic<int> mArgumentsNotReady`), and a value or the executor fewer
than 2^32 references.
-/

namespace AsyncLib

namespace GraphExecutor

open AsyncValue Sys Agenda

/-! ## Operations -/

/-- The closures that the executor passes to `AndThen`. -/
inductive Closure where
  /-- Of `ProcessUsedByAndSetAsyncValueInfo`, for the result `j` of kernel `k`. -/
  | setAndDecrease (k j : Nat) (result : Addr)
  /-- Of `ProcessPseudoKernelUsedBys`, for the result `j` of the start node. -/
  | decrease (j : Nat)
  deriving DecidableEq, Repr

/-- What follows a call of `GetOrCreateAsyncValuePtr`. -/
inductive Cont where
  /-- The loop over `argumentsIdx`: `todo` are the registers after this one. -/
  | addArg (k : Nat) (todo : List Nat) (args : List Addr) (errorArguments : Option Addr)
  /-- `results[i] = TakeRef(value)`, where `r` is `resultRegs[i]`. -/
  | takeResult (r : Nat)
  deriving DecidableEq, Repr

/-- What a thread has to do next, one atomic access at a time. -/
inductive Op where
  /-- One round of `ProcessArgumentsAsPseudoKernel`. -/
  | pseudoKernel (j : Nat)
  /-- `AndThen` of `ProcessPseudoKernelUsedBys`. -/
  | pseudoAndThen (j : Nat) (result : Addr)
  /-- `DecreaseReadyCountAndPush` for the users of the result `j` of kernel `k`. -/
  | decreaseReadyCounts (k j : Nat)
  /-- One `fetch_sub` of it. -/
  | decreaseReadyCount (userId : Nat)
  /-- The head of the loop of `ProcessReadyKernels`. -/
  | processReadyKernels
  | enqueueWork (kernelId : Nat)
  | processReadyKernel (kernelId : Nat)
  /-- The loop over `argumentsIdx` of `ProcessReadyKernel`. -/
  | addArgs (k : Nat) (todo : List Nat) (args : List Addr) (errorArguments : Option Addr)
  /-- The compare-exchange of `GetOrCreateAsyncValuePtr`. -/
  | installIndirect (r : Nat) (indirectValue : Addr) (c : Cont)
  | callKernel (k : Nat) (args : List Addr) (errorArguments : Option Addr)
  | dropRef (a : Addr)
  /-- `ProcessUsedByAndSetAsyncValueInfo` for the result `j` of kernel `k`. -/
  | processUsedBy (k j : Nat) (result : Addr)
  | andThen (k j : Nat) (result : Addr)
  /-- `SetAsyncValuePtr` up to its `AddRef`. -/
  | setAsyncValuePtr (k j : Nat) (newValue : Addr)
  /-- The compare-exchange of `SetAsyncValuePtr`. -/
  | casAsyncValuePtr (k j : Nat) (newValue : Addr)
  /-- `SetAsyncValuePtr` after a failed compare-exchange. -/
  | forwardExisting (k j : Nat) (indirectValue newValue : Addr)
  /-- The closure of `ForwardTo`. -/
  | forwardTo (this2 value2 : Addr)
  /-- One round of the loop over `results`. -/
  | getResult (r : Nat)
  | dropExecutor
  deriving DecidableEq, Repr

/-- A call of `ProcessReadyKernels`: the vector of ready kernels, and what is left of the code. -/
structure Frame where
  ready : List Nat
  code : List Op
  deriving DecidableEq, Repr

/-- `AsyncValueInfo::mValue`. -/
inductive Reg where
  | empty
  /-- An indirect value of `GetOrCreateAsyncValuePtr`, not forwarded yet. -/
  | installed (i : Addr)
  /-- The same, after the `ForwardTo(v)` of the producer. -/
  | forwarded (i v : Addr)
  /-- An argument of the call, or the value that the producer stored. -/
  | direct (v : Addr)
  deriving DecidableEq, Repr

namespace Reg

/-- The pointer. -/
def ptr : Reg → Option Addr
  | empty => none
  | installed i => some i
  | forwarded i _ => some i
  | direct v => some v

/-- The value that was delivered to the register. -/
def delivered : Reg → Option Addr
  | empty => none
  | installed _ => none
  | forwarded _ v => some v
  | direct v => some v

/-- The pointer is an indirect value of `GetOrCreateAsyncValuePtr`. -/
def isIndirect : Reg → Bool
  | installed _ => true
  | forwarded _ _ => true
  | _ => false

@[simp] theorem ptr_empty : empty.ptr = none := rfl

@[simp] theorem ptr_installed (i : Addr) : (installed i).ptr = some i := rfl

@[simp] theorem ptr_forwarded (i v : Addr) : (forwarded i v).ptr = some i := rfl

@[simp] theorem ptr_direct (v : Addr) : (direct v).ptr = some v := rfl

@[simp] theorem delivered_empty : empty.delivered = none := rfl

@[simp] theorem delivered_installed (i : Addr) : (installed i).delivered = none := rfl

@[simp] theorem delivered_forwarded (i v : Addr) : (forwarded i v).delivered = some v := rfl

@[simp] theorem delivered_direct (v : Addr) : (direct v).delivered = some v := rfl

end Reg

/-- An entry of `results`. -/
inductive Slot where
  | empty
  | held (a : Addr)
  /-- The caller has dropped it. -/
  | dropped
  deriving DecidableEq, Repr

/-- How a kernel makes a value: available, resolved later, or an indirect value forwarded later. -/
inductive Form where
  | ready
  | later
  | indirect
  deriving DecidableEq, Repr

/-- A value that a kernel makes, and what it will hold. -/
structure Fresh (V E : Type) where
  form : Form
  mTypeId : Nat
  out : Except E V

/-- What a kernel puts into a result: a value it made, or one of its arguments. -/
inductive Src where
  | fresh (i : Nat)
  | arg (i : Nat)
  deriving DecidableEq, Repr

/-- What a kernel does. -/
structure Outcome (V E : Type) where
  fresh : List (Fresh V E)
  outs : List Src

/-- The free choices of one step: what the kernel does if one is called, and whether `EnqueueWork`
runs the task at once, as it does when the queue is full. -/
structure Choice (V E : Type) where
  outcome : Outcome V E
  inline : Bool

/-- What the threads share. `results` is indexed by register. -/
structure Shared (V E : Type) where
  heap : Heap V E Closure
  regs : Nat → Reg
  mArgumentsNotReady : Nat → Int
  results : Nat → Slot
  mRefCount : Nat
  promised : Addr → Bool
  log : List Nat
  returned : List Addr

/-- What an operation leaves to do: more code and ready kernels of the same frame, frames that run
first, and work for the queue. -/
structure Effect where
  code : List Op := []
  ready : List Nat := []
  frames : List Frame := []
  queued : List Nat := []

/-- The shared state, the work queue and the threads. -/
structure St (V E : Type) where
  sh : Shared V E
  queue : List Nat
  threads : List (List Frame)

/-! ## The code -/

section Code

variable {F V E : Type} (g : AsyncGraph F) (start : Nat)

/-- The task of `EnqueueWork`. -/
def taskFrame (kernelId : Nat) : Frame := ⟨[kernelId], [.processReadyKernels, .dropExecutor]⟩

/-- The code of a closure. -/
def waiterCode : Waiter Closure → List Op
  | .forward i v => [.forwardTo i v]
  | .client (.setAndDecrease k j v) =>
    [.setAsyncValuePtr k j v, .processReadyKernels, .dropExecutor]
  | .client (.decrease j) => [.decreaseReadyCounts start j, .processReadyKernels, .dropExecutor]

/-- The frames of the closures that `RunWaiters` runs. -/
def waiterFrames (ws : List (Waiter Closure)) : List Frame :=
  ws.map fun w => ⟨[], waiterCode start w⟩

/-- `refAddValue` of `SetAsyncValuePtr`. -/
def refAddValue (r : Nat) : Nat := g.userCount r - 1

/-- The state of a value that holds `out`. -/
def stateOf : Except E V → State
  | .ok _ => .kConcrete
  | .error _ => .kError

/-- A new value with `n` references. -/
def Fresh.cell {κ : Type} (f : Fresh V E) (n : Nat) : Cell V E κ where
  mKind := match f.form with
    | .indirect => .kIndirect
    | _ => .kConcrete
  mRefCount := n
  mTypeId := f.mTypeId
  state := match f.form with
    | .ready => stateOf f.out
    | _ => .kUnconstructed
  waiters := []
  mValue := none
  out := some f.out

/-- `MakeIndirectAsyncValue`, with the references that `GetOrCreateAsyncValuePtr` adds. -/
def indirectCell {κ : Type} (n : Nat) : Cell V E κ :=
  ⟨.kIndirect, n, 0, .kUnconstructed, [], none, none⟩

/-- After `GetOrCreateAsyncValuePtr` returned `v`. -/
def Cont.resume (sh : Shared V E) (v : Addr) : Cont → Shared V E × List Op
  | .addArg k todo args err =>
    (sh, [.addArgs k todo (args ++ [v]) (if sh.heap.isError v then some v else err)])
  | .takeResult r => ({ sh with results := Function.update sh.results r (.held v) }, [])

/-- `GetOrCreateAsyncValuePtr` up to its compare-exchange. -/
def getOrCreateAsyncValuePtr (sh : Shared V E) (r : Nat) (c : Cont) : Shared V E × List Op :=
  match (sh.regs r).ptr with
  | some v => c.resume sh v
  | none =>
    ({ sh with heap := sh.heap.alloc (indirectCell (g.userCount r + 1)) },
      [.installIndirect r sh.heap.next c])

/-- The values in the results of a kernel that made its values at `base`. -/
def Src.addr (base : Addr) (args : List Addr) : Src → Option Addr
  | .fresh i => some (base + i)
  | .arg i => args[i]?

/-- The kernel makes its values; it holds one reference to each. -/
def allocAll {κ : Type} (h : Heap V E κ) (fs : List (Fresh V E)) : Heap V E κ :=
  fs.foldl (fun h f => h.alloc (f.cell 1)) h

/-- `FormRef` of each result. -/
def addRefs {κ : Type} (h : Heap V E κ) (as : List Addr) : Heap V E κ :=
  as.foldl (fun h a => h.addRef a 1) h

/-- The kernel gives up the references to its available values from `base` on. -/
def dropReady {κ : Type} (h : Heap V E κ) (base : Addr) : List (Fresh V E) → Heap V E κ
  | [] => h
  | f :: fs => dropReady (if f.form = .ready then h.dropRef base 1 else h) (base + 1) fs

/-- Which values from `base` on are resolved later. -/
def promises (base : Nat) (fs : List (Fresh V E)) (a : Nat) : Bool :=
  decide (base ≤ a) && (fs[a - base]?.elim false fun f => decide (f.form ≠ .ready))

/-- The operations after a call: the arguments are dropped, then each result is processed. -/
def afterCall (k : Nat) (args outs : List Addr) : List Op :=
  args.map .dropRef ++ outs.zipIdx.map fun p => .processUsedBy k p.2 p.1

/-- The call of the kernel `k`. -/
def callKernel (sh : Shared V E) (o : Outcome V E) (k : Nat) (args : List Addr) :
    Option (Shared V E × List Op) :=
  match o.outs.mapM (Src.addr sh.heap.next args) with
  | none => none
  | some outs =>
    if outs.length = g.numResults k ∧
        ∀ a ∈ outs, a < sh.heap.next + o.fresh.length then
      let h := dropReady (addRefs (allocAll sh.heap o.fresh) outs) sh.heap.next o.fresh
      some ({ sh with
        heap := h
        promised := fun a => sh.promised a || promises sh.heap.next o.fresh a
        returned := sh.returned ++ outs }, afterCall k args outs)
    else none

/-- One operation. -/
def exec (sh : Shared V E) (c : Choice V E) : Op → Option (Shared V E × Effect)
  | .pseudoKernel j =>
    -- the first result is taken to be available
    if j = 0 then some (sh, { code := [.decreaseReadyCounts start 0] })
    else if g.userCount (g.resultReg start j) = 0 then some (sh, {})
    else match (sh.regs (g.resultReg start j)).ptr with
      | none => none
      | some a =>
        if g.getNextUsedBys start j = [] then some (sh, {})
        else if sh.heap.isAvailable a then some (sh, { code := [.decreaseReadyCounts start j] })
        else some (sh, { code := [.pseudoAndThen j a] })
  | .pseudoAndThen j a =>
    let r := sh.heap.andThen a (.client (.decrease j))
    some ({ sh with heap := r.1, mRefCount := sh.mRefCount + 1 },
      { frames := waiterFrames start r.2 })
  | .decreaseReadyCounts k j =>
    some (sh, { code := (g.getNextUsedBys k j).map .decreaseReadyCount })
  | .decreaseReadyCount u =>
    some ({ sh with
      mArgumentsNotReady :=
        Function.update sh.mArgumentsNotReady u (sh.mArgumentsNotReady u - 1) },
      { ready := if sh.mArgumentsNotReady u = 1 then [u] else [] })
  | .processReadyKernels => none
  | .enqueueWork k =>
    some ({ sh with mRefCount := sh.mRefCount + 1 },
      if c.inline then { frames := [taskFrame k] } else { queued := [k] })
  | .processReadyKernel k =>
    some ({ sh with log := k :: sh.log }, { code := [.addArgs k (g.argumentsIdx k) [] none] })
  | .addArgs k [] args err => some (sh, { code := [.callKernel k args err] })
  | .addArgs k (r :: todo) args err =>
    let p := getOrCreateAsyncValuePtr g sh r (.addArg k todo args err)
    some (p.1, { code := p.2 })
  | .installIndirect r ind cont =>
    match (sh.regs r).ptr with
    | none =>
      let p := cont.resume { sh with regs := Function.update sh.regs r (.installed ind) } ind
      some (p.1, { code := p.2 })
    | some v =>
      let p := cont.resume { sh with heap := sh.heap.dropRef ind (g.userCount r + 1) } v
      some (p.1, { code := p.2 })
  | .callKernel k args (some e) =>
    some ({ sh with heap := addRefs sh.heap (List.replicate (g.numResults k) e) },
      { code := afterCall k args (List.replicate (g.numResults k) e) })
  | .callKernel k args none =>
    (callKernel g sh c.outcome k args).map fun p => (p.1, { code := p.2 })
  | .dropRef a => some ({ sh with heap := sh.heap.dropRef a 1 }, {})
  | .processUsedBy k j v =>
    if g.getNextUsedBys k j = [] ∨ sh.heap.isAvailable v = true then
      some (sh, { code := [.setAsyncValuePtr k j v] })
    else some (sh, { code := [.andThen k j v] })
  | .andThen k j v =>
    let r := sh.heap.andThen v (.client (.setAndDecrease k j v))
    some ({ sh with heap := r.1, mRefCount := sh.mRefCount + 1 },
      { frames := waiterFrames start r.2 })
  | .setAsyncValuePtr k j v =>
    some ({ sh with heap := sh.heap.addRef v (refAddValue g (g.resultReg k j)) },
      { code := [.casAsyncValuePtr k j v] })
  | .casAsyncValuePtr k j v =>
    match (sh.regs (g.resultReg k j)).ptr with
    | none =>
      some ({ sh with regs := Function.update sh.regs (g.resultReg k j) (.direct v) },
        { code := [.decreaseReadyCounts k j] })
    | some i => some (sh, { code := [.forwardExisting k j i v] })
  | .forwardExisting k j i v =>
    let r := (sh.heap.dropRef v (refAddValue g (g.resultReg k j))).forwardTo i v
    some ({ sh with
      heap := r.1, regs := Function.update sh.regs (g.resultReg k j) (.forwarded i v) },
      { code := [.decreaseReadyCounts k j], frames := waiterFrames start r.2 })
  | .forwardTo i v =>
    let r := sh.heap.forwardTo i v
    some ({ sh with heap := r.1 }, { code := [.dropRef i], frames := waiterFrames start r.2 })
  | .getResult r =>
    let p := getOrCreateAsyncValuePtr g sh r (.takeResult r)
    some (p.1, { code := p.2 })
  | .dropExecutor => some ({ sh with mRefCount := sh.mRefCount - 1 }, {})

/-- The work that has promised `a` resolves it: a concrete value gets what it was made for, an
indirect value is forwarded to a new value. -/
def resolve (sh : Shared V E) (a : Addr) (form : Form) (ty : Nat) :
    Option (Shared V E × List (Waiter Closure)) :=
  match (sh.heap.cell a).mKind, (sh.heap.cell a).out with
  | .kConcrete, some out =>
    let r := sh.heap.notifyAvailable a (stateOf out)
    some ({ sh with heap := r.1, promised := Function.update sh.promised a false }, r.2)
  | .kIndirect, some out =>
    let h := sh.heap.alloc ((⟨form, ty, out⟩ : Fresh V E).cell (if form = .ready then 1 else 2))
    let r := h.forwardTo a sh.heap.next
    some ({ sh with
      heap := r.1
      promised := Function.update (Function.update sh.promised a false) sh.heap.next
        (decide (form ≠ .ready)) }, r.2)
  | _, none => none

/-- A step of a thread, or an event of the environment. -/
inductive Label (V E : Type) where
  /-- The thread `t` executes its next operation. -/
  | run (t : Nat) (c : Choice V E)
  /-- A worker takes a task from the queue. -/
  | pick (kernelId : Nat)
  /-- A promised value is resolved, on a thread of its own. -/
  | resolve (a : Addr) (form : Form) (ty : Nat)
  /-- The caller drops an entry of `results`; `Execute` has returned. -/
  | dropResult (r : Nat)

/-- One step of the thread `t` with the stack `f :: stack`. -/
def runFrame (s : St V E) (t : Nat) (c : Choice V E) (f : Frame) (stack : List Frame) :
    Option (St V E) :=
  match f.code with
  | [] => if f.ready = [] then some { s with threads := s.threads.set t stack } else none
  | op :: rest =>
    match op, f.ready with
    | .processReadyKernels, [] =>
      some { s with threads := s.threads.set t (⟨[], rest⟩ :: stack) }
    | .processReadyKernels, k :: ks =>
      let code := ks.map .enqueueWork ++ .processReadyKernel k :: .processReadyKernels :: rest
      some { s with threads := s.threads.set t (⟨[], code⟩ :: stack) }
    | op, _ =>
      (exec g start s.sh c op).map fun p =>
        { sh := p.1
          queue := s.queue ++ p.2.queued
          threads := s.threads.set t
            (p.2.frames ++ ⟨f.ready ++ p.2.ready, p.2.code ++ rest⟩ :: stack) }

/-- One step; `none` if it is not enabled. -/
def step (s : St V E) : Label V E → Option (St V E)
  | .run t c =>
    match s.threads[t]? with
    | some (f :: stack) => runFrame g start s t c f stack
    | _ => none
  | .pick k =>
    if k ∈ s.queue then
      some { s with queue := s.queue.erase k, threads := s.threads ++ [[taskFrame k]] }
    else none
  | .resolve a form ty =>
    if s.sh.promised a then
      (resolve s.sh a form ty).map fun p =>
        { s with
          sh := p.1
          threads := s.threads ++ [waiterFrames start p.2 ++ [⟨[], [.dropRef a]⟩]] }
    else none
  | .dropResult r =>
    match s.sh.results r with
    | .held a =>
      if s.threads[0]? = some [] then
        some { s with
          sh := { s.sh with
            heap := s.sh.heap.dropRef a 1, results := Function.update s.sh.results r .dropped } }
      else none
    | _ => none

/-! ## The start of a run -/

/-- `InitializeArgumentRegisters`: the result `j` of the start node gets the argument `j`. -/
def initializeArgumentRegisters (heap : Heap V E Closure) (arguments : List Addr) :
    Heap V E Closure × (Nat → Reg) :=
  (arguments.take (g.numResults start)).zipIdx.foldl (fun p a =>
    (p.1.addRef a.1 (g.userCount (g.resultReg start a.2)),
      Function.update p.2 (g.resultReg start a.2) (.direct a.1))) (heap, fun _ => .empty)

/-- The code of `Execute`. -/
def mainFrame : Frame where
  ready := []
  code := (List.range (g.numResults start)).map .pseudoKernel ++ .processReadyKernels ::
    (g.resultRegs.take g.mOutputNames.length).map .getResult ++ [.dropExecutor]

/-- The state in which the loop of `Execute` starts. -/
def init (heap : Heap V E Closure) (promised : Addr → Bool) (arguments : List Addr) : St V E where
  sh :=
    { heap := (initializeArgumentRegisters g start heap arguments).1
      regs := (initializeArgumentRegisters g start heap arguments).2
      mArgumentsNotReady := fun n => g.counter n
      results := fun _ => .empty
      mRefCount := 1
      promised := promised
      log := []
      returned := [] }
  queue := []
  threads := [[mainFrame g start]]

/-- All runs of the graph `g` on `arguments`. -/
def sys (heap : Heap V E Closure) (promised : Addr → Bool) (arguments : List Addr) :
    Sys (St V E) (Label V E) := Sys.ofFun (init g start heap promised arguments) (step g start)

end Code

end GraphExecutor

end AsyncLib
