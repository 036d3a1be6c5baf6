import AsyncLib.Lib.Agenda
import AsyncLib.Lib.System

/-!
# `TaskGraph` and `TaskGraphExecutor`

`async/runtime/task_graph.cpp`: a graph of functions, and one run of it as interleaved atomic steps
of the calling thread and the workers.

* `TaskNode`, `TaskGraph`: a node is named by its position in `mTaskNodes`, which is also what
  `emplace` returns. `Edit`: the calls that make a graph; `TaskGraph.build` makes one and builds it.
* `Op`: a point of the executor's code that touches shared memory. `Frame`: one call of
  `ProcessReadyNodeIndexs` with its vector, and what the call still has to execute. A thread is a
  stack of frames, because `EnqueueWork` runs the task at once when the queue is full.
* `step`, `init`, `sys`: all runs of `RunTaskGraph`. `called`, `returned` and `finished` record the
  nodes whose function was called, has returned, and is accounted for in `mTotalTaskCount`.

A node's function is arbitrary code that returns at some later step. What is not in the model: the
allocator, the reference count of the graph, and the sizes of machine integers.
-/

namespace AsyncLib

open Sys Agenda

/-! ## The graph -/

/-- `TaskNode`, without its function. -/
structure TaskNode where
  mDependencies : List Nat := []
  mSuccessories : List Nat := []
  deriving DecidableEq, Repr

/-- `TaskGraph`. -/
structure TaskGraph where
  mTaskNodes : List TaskNode := []
  mNodeIndexInfo : Nat → Nat := fun _ => 0
  mNodeCountInfo : Nat → Nat := fun _ => 0

namespace TaskGraph

/-- The number of nodes. -/
def numNodes (g : TaskGraph) : Nat := g.mTaskNodes.length

/-- The node that a pointer points to. -/
def node (g : TaskGraph) (k : Nat) : TaskNode := g.mTaskNodes.getD k {}

/-- `GetNumDependencies`. -/
def getNumDependencies (g : TaskGraph) (k : Nat) : Nat := (g.node k).mDependencies.length

/-- `Emplace`. -/
def emplace (g : TaskGraph) : TaskGraph := { g with mTaskNodes := g.mTaskNodes ++ [{}] }

/-- `from->mSuccessories.push_back(to)`. -/
def pushSuccessor (g : TaskGraph) (source target : Nat) : TaskGraph :=
  { g with
    mTaskNodes := g.mTaskNodes.modify source fun n =>
      { n with mSuccessories := n.mSuccessories ++ [target] } }

/-- `to->mDependencies.push_back(from)`. -/
def pushDependency (g : TaskGraph) (target source : Nat) : TaskGraph :=
  { g with
    mTaskNodes := g.mTaskNodes.modify target fun n =>
      { n with mDependencies := n.mDependencies ++ [source] } }

/-- `this->AddDependency(node)`. -/
def addDependency (g : TaskGraph) (this node : Nat) : TaskGraph :=
  (g.pushSuccessor node this).pushDependency this node

/-- `this->AddSuccessor(node)`. -/
def addSuccessor (g : TaskGraph) (this node : Nat) : TaskGraph :=
  (g.pushSuccessor this node).pushDependency node this

/-- One round of the loop of `BuildGraph`. -/
def buildNode (g : TaskGraph) (i : Nat) : TaskGraph :=
  { g with
    mNodeIndexInfo := Function.update g.mNodeIndexInfo i i
    mNodeCountInfo := Function.update g.mNodeCountInfo i (g.getNumDependencies i) }

/-- `BuildGraph`. -/
def buildGraph (g : TaskGraph) : TaskGraph := (List.range g.numNodes).foldl buildNode g

/-- A call that changes a graph; `this` and `node` are nodes that `emplace` returned. -/
inductive Edit where
  | emplace
  | addDependency (this node : Nat)
  | addSuccessor (this node : Nat)
  deriving DecidableEq, Repr

/-- There is no call with a node that does not exist. -/
def edit (g : TaskGraph) : Edit → TaskGraph
  | .emplace => g.emplace
  | .addDependency this node =>
    if this < g.numNodes ∧ node < g.numNodes then g.addDependency this node else g
  | .addSuccessor this node =>
    if this < g.numNodes ∧ node < g.numNodes then g.addSuccessor this node else g

/-- The graph made by `edits`, then built. -/
def build (edits : List Edit) : TaskGraph := (edits.foldl edit {}).buildGraph

/-- The function of `j` waits for the function of `k`. -/
def Edge (g : TaskGraph) (k j : Nat) : Prop := k ∈ (g.node j).mDependencies

/-- No node waits for itself. -/
def Acyclic (g : TaskGraph) : Prop := ∀ k, ¬ Relation.TransGen g.Edge k k

end TaskGraph

/-! ## Operations of the executor -/

namespace TaskGraphExecutor

/-- What a thread has to do next, one atomic access at a time. -/
inductive Op where
  /-- The head of the loop of `ProcessReadyNodeIndexs`. -/
  | processReadyNodeIndexs
  /-- `AddRef` and `EnqueueWork` in it. -/
  | enqueueWork (kernelId : Nat)
  /-- `(*node)()` of `ProcessReadyNodeIndex`: the call. -/
  | processReadyNodeIndex (nodeId : Nat)
  /-- The function of the node returns. -/
  | returnNode (nodeId : Nat)
  /-- `mTotalTaskCount.fetch_sub(1)`. -/
  | decreaseTotal (nodeId : Nat)
  /-- `mNodeCountInfo[successor].fetch_sub(1)`. -/
  | decreaseCount (successor : Nat)
  /-- `mFinishChain->emplace`. -/
  | emplaceFinish
  /-- `lat.wait()` of `Await`. -/
  | await
  | dropRef
  deriving DecidableEq, Repr

/-- A call of `ProcessReadyNodeIndexs`: its vector, and what is left of the code. -/
structure Frame where
  ready : List Nat
  code : List Op
  deriving DecidableEq, Repr

/-- What the threads share. `mFinishChain` counts the calls of `emplace` on it. -/
structure Shared where
  mNodeCountInfo : Nat → Int
  mTotalTaskCount : Int
  mFinishChain : Nat
  mRefCount : Nat
  called : List Nat
  returned : List Nat
  finished : List Nat

/-- What an operation leaves to do. -/
structure Effect where
  code : List Op := []
  ready : List Nat := []
  frames : List Frame := []
  queued : List Nat := []

/-- The shared state, the work queue and the threads. -/
structure St where
  sh : Shared
  queue : List Nat
  threads : List (List Frame)

/-- The task of `EnqueueWork`. -/
def taskFrame (kernelId : Nat) : Frame := ⟨[kernelId], [.processReadyNodeIndexs, .dropRef]⟩

/-- One operation. `inline` is the answer of the work queue to `EnqueueWork`. -/
def exec (g : TaskGraph) (sh : Shared) (inline : Bool) : Op → Option (Shared × Effect)
  | .processReadyNodeIndexs => none
  | .enqueueWork k =>
    some ({ sh with mRefCount := sh.mRefCount + 1 },
      if inline then { frames := [taskFrame k] } else { queued := [k] })
  | .processReadyNodeIndex k =>
    some ({ sh with called := k :: sh.called }, { code := [.returnNode k] })
  | .returnNode k =>
    some ({ sh with returned := k :: sh.returned }, { code := [.decreaseTotal k] })
  | .decreaseTotal k =>
    some ({ sh with
      mTotalTaskCount := sh.mTotalTaskCount - 1, finished := k :: sh.finished },
      { code := (g.node k).mSuccessories.map .decreaseCount ++
          if sh.mTotalTaskCount = 1 then [.emplaceFinish] else [] })
  | .decreaseCount j =>
    some ({ sh with
      mNodeCountInfo := Function.update sh.mNodeCountInfo j (sh.mNodeCountInfo j - 1) },
      { ready := if sh.mNodeCountInfo j = 1 then [g.mNodeIndexInfo j] else [] })
  | .emplaceFinish => some ({ sh with mFinishChain := sh.mFinishChain + 1 }, {})
  | .await => if sh.mFinishChain ≠ 0 then some (sh, {}) else none
  | .dropRef => some ({ sh with mRefCount := sh.mRefCount - 1 }, {})

/-- A step of a thread, or a worker takes a task. -/
inductive Label where
  /-- The thread `t` executes its next operation. -/
  | run (t : Nat) (inline : Bool)
  /-- A worker takes a task from the queue. -/
  | pick (kernelId : Nat)
  deriving DecidableEq, Repr

/-- One step of the thread `t` with the stack `f :: stack`. -/
def runFrame (g : TaskGraph) (s : St) (t : Nat) (inline : Bool) (f : Frame) (stack : List Frame) :
    Option St :=
  match f.code with
  | [] => if f.ready = [] then some { s with threads := s.threads.set t stack } else none
  | op :: rest =>
    match op, f.ready with
    | .processReadyNodeIndexs, [] =>
      some { s with threads := s.threads.set t (⟨[], rest⟩ :: stack) }
    | .processReadyNodeIndexs, k :: ks =>
      let code := ks.map .enqueueWork ++
        .processReadyNodeIndex k :: .processReadyNodeIndexs :: rest
      some { s with threads := s.threads.set t (⟨[], code⟩ :: stack) }
    | op, _ =>
      (exec g s.sh inline op).map fun p =>
        { sh := p.1
          queue := s.queue ++ p.2.queued
          threads := s.threads.set t
            (p.2.frames ++ ⟨f.ready ++ p.2.ready, p.2.code ++ rest⟩ :: stack) }

/-- One step; `none` if it is not enabled. -/
def step (g : TaskGraph) (s : St) : Label → Option St
  | .run t inline =>
    match s.threads[t]? with
    | some (f :: stack) => runFrame g s t inline f stack
    | _ => none
  | .pick k =>
    if k ∈ s.queue then
      some { s with queue := s.queue.erase k, threads := s.threads ++ [[taskFrame k]] }
    else none

/-- `ProcessStartNodeIndex`. -/
def startNodes (g : TaskGraph) : List Nat :=
  ((List.range g.numNodes).filter fun k => g.getNumDependencies k = 0).map g.mNodeIndexInfo

/-- `RunTaskGraph(graph, sync)`, after `ProcessStartNodeIndex`. -/
def mainFrame (g : TaskGraph) (sync : Bool) : Frame where
  ready := startNodes g
  code := .processReadyNodeIndexs :: (if sync then [.await] else []) ++ [.dropRef]

/-- The state in which the loop of `Execute` starts. -/
def init (g : TaskGraph) (sync : Bool) : St where
  sh :=
    { mNodeCountInfo := fun k => g.mNodeCountInfo k
      mTotalTaskCount := g.numNodes
      mFinishChain := 0
      mRefCount := 1
      called := []
      returned := []
      finished := [] }
  queue := []
  threads := [[mainFrame g sync]]

/-- All runs of `RunTaskGraph(graph, sync)`. -/
def sys (g : TaskGraph) (sync : Bool) : Sys St Label := Sys.ofFun (init g sync) (step g)

end TaskGraphExecutor

end AsyncLib
