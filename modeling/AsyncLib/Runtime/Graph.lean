import Mathlib.Data.List.Sort
import Mathlib.Data.List.Dedup
import Mathlib.Logic.Function.Basic
import Mathlib.Algebra.GroupWithZero.Nat
import Mathlib.Algebra.Group.Int.Defs

/-!
# `AsyncGraph` and `BuildGraph`

`async/runtime/graph.{h,cpp}` and `async/runtime/async_kernel.h`: the nodes of a graph, the tables
that `BuildGraph` derives from them, and the copy that `GraphExecutor::Reset` makes.

* `BuildMaps`: the local maps of `BuildGraph` after its first loop (`buildMaps`).
* `buildGraph`: the derived tables. `mUsedByKernlTable` is indexed by the node's position, since
  every `AsyncNode` is an object of its own.
* `HashOrder`: the order in which an `unordered_map` is iterated. It is arbitrary, but the same as
  long as the map is not changed.
* `resetCounters`: the ready counters of a `GraphExecutor` after `Reset`.
-/

namespace AsyncLib

/-- `AsyncNode`. `F` is the type of kernel functions. -/
structure AsyncNode (F : Type) where
  mInputNames : List String
  mOutputNames : List String
  mFunc : F
  mFuncName : String

namespace AsyncNode

variable {F : Type}

/-- `GetNumInputs`. -/
def getNumInputs (n : AsyncNode F) : Nat := n.mInputNames.length

/-- `GetNumResults`. -/
def getNumResults (n : AsyncNode F) : Nat := n.mOutputNames.length

end AsyncNode

/-- `AsyncGraph`. `mNameAndAsyncIdPair` is listed in iteration order; `mUserCounts` and
`mArgumentsNotReady` are the two vectors of `mFunctionInfo`. -/
structure AsyncGraph (F : Type) where
  mAsyncNodes : List (AsyncNode F)
  mNameAndAsyncIdPair : List (String × Nat)
  mUsedByKernlTable : List (List (List Nat))
  mUserCounts : List Nat
  mArgumentsNotReady : List Nat
  mOutputNames : List String
  mIsConstructed : Bool

/-- The iteration order of an `unordered_map` from names to indices. -/
structure HashOrder where
  iter : List (String × Nat) → List (String × Nat)
  perm : ∀ l, (iter l).Perm l

/-- The order of insertion. -/
def HashOrder.insertion : HashOrder := ⟨id, fun _ => .refl _⟩

namespace AsyncGraph

variable {F : Type}

/-- A graph whose nodes were emplaced and which was not built yet. -/
def ofNodes (nodes : List (AsyncNode F)) : AsyncGraph F := ⟨nodes, [], [], [], [], [], false⟩

/-- `AsyncGraph::emplace`. -/
def emplace (g : AsyncGraph F) (inputNames outputNames : List String) (fn : F) (name : String) :
    AsyncGraph F :=
  { g with mAsyncNodes := g.mAsyncNodes ++ [⟨inputNames, outputNames, fn, name⟩] }

/-- `AsyncGraph::Reset`. -/
def reset (_ : AsyncGraph F) : AsyncGraph F := ⟨[], [], [], [], [], [], false⟩

/-- `GetOutputNames`. -/
def getOutputNames (g : AsyncGraph F) : List String := g.mOutputNames

/-- `GetNumOutputs`. -/
def getNumOutputs (g : AsyncGraph F) : Nat := g.mOutputNames.length

/-! ## The first loop -/

/-- The local maps of `BuildGraph`. A key that is not in a counting map counts 0, as `operator[]`
gives. `indexAsyncValueMap` is listed in insertion order. -/
structure BuildMaps (F : Type) where
  argCountMap : String → Nat
  resCountMap : String → Nat
  indexAsyncValueMap : List (String × Nat)
  usedCountmap : String → List Nat
  indexAsyncNodeMap : String → Option (AsyncNode F)
  indexAsyncNodeIdMap : String → Nat
  startId : Nat

/-- The maps before the first loop. -/
def BuildMaps.empty : BuildMaps F := ⟨fun _ => 0, fun _ => 0, [], fun _ => [], fun _ => none,
  fun _ => 0, 0⟩

/-- The part of `ProcessNameAndRefCount` on `indexMap` and `startId`: a new name gets the next
index. -/
def BuildMaps.index (m : BuildMaps F) (name : String) : BuildMaps F :=
  if name ∈ m.indexAsyncValueMap.map Prod.fst then m
  else { m with
    indexAsyncValueMap := m.indexAsyncValueMap ++ [(name, m.startId)]
    startId := m.startId + 1 }

/-- `std::set<unsigned>::insert`. -/
def setInsert (x : Nat) (s : List Nat) : List Nat :=
  if x ∈ s then s else s.orderedInsert (· ≤ ·) x

/-- The body of the loop over the inputs of node `i`. -/
def BuildMaps.input (i : Nat) (m : BuildMaps F) (name : String) : BuildMaps F :=
  let m := { m with argCountMap := Function.update m.argCountMap name (m.argCountMap name + 1) }
  let m := m.index name
  { m with usedCountmap := Function.update m.usedCountmap name (setInsert i (m.usedCountmap name)) }

/-- The body of the loop over the results of node `i`. -/
def BuildMaps.output (i : Nat) (node : AsyncNode F) (m : BuildMaps F) (name : String) :
    BuildMaps F :=
  let m := { m with resCountMap := Function.update m.resCountMap name (m.resCountMap name + 1) }
  let m := m.index name
  { m with
    indexAsyncNodeMap := Function.update m.indexAsyncNodeMap name (some node)
    indexAsyncNodeIdMap := Function.update m.indexAsyncNodeIdMap name i }

/-- One round of the first loop. -/
def BuildMaps.node (m : BuildMaps F) (node : AsyncNode F) (i : Nat) : BuildMaps F :=
  node.mOutputNames.foldl (BuildMaps.output i node) (node.mInputNames.foldl (BuildMaps.input i) m)

/-- The first loop of `BuildGraph`. -/
def buildMaps (nodes : List (AsyncNode F)) : BuildMaps F :=
  nodes.zipIdx.foldl (fun m p => m.node p.1 p.2) .empty

/-! ## The derived tables -/

/-- `std::vector::resize`. -/
def resize (n : Nat) (l : List Nat) : List Nat := l.take n ++ List.replicate (n - l.length) 0

/-- The stores to `mKernelInfos` in the second loop: each result's producer gets its number of
inputs. A node without results is not written. -/
def storeCounters (m : BuildMaps F) (names : List String) (counters : List Nat) : List Nat :=
  names.foldl (fun c name =>
    c.set (m.indexAsyncNodeIdMap name) ((m.indexAsyncNodeMap name).elim 0 AsyncNode.getNumInputs))
    counters

/-- The loop that writes `mUserCount`. -/
def storeUserCounts (m : BuildMaps F) (ids : List (String × Nat)) (counts : List Nat) : List Nat :=
  ids.foldl (fun c p => c.set p.2 (m.argCountMap p.1 + m.resCountMap p.1 - 1)) counts

/-- `AsyncGraph::BuildGraph`. The names that are already in `mOutputNames` stay there. -/
def buildGraph (order : HashOrder) (g : AsyncGraph F) : AsyncGraph F :=
  let m := buildMaps g.mAsyncNodes
  let ids := order.iter m.indexAsyncValueMap
  let counts := storeUserCounts m ids (resize ids.length g.mUserCounts)
  { g with
    mNameAndAsyncIdPair := ids
    mUsedByKernlTable := g.mAsyncNodes.map fun n => n.mOutputNames.map m.usedCountmap
    mUserCounts := counts
    mArgumentsNotReady := storeCounters m (g.mAsyncNodes.flatMap AsyncNode.mOutputNames)
      (resize g.mAsyncNodes.length g.mArgumentsNotReady)
    mOutputNames := g.mOutputNames ++
      (ids.filter fun p => counts.getD p.2 0 == 0).map Prod.fst
    mIsConstructed := true }

/-- `GraphExecutor::Reset`: `KernelInfo(numOperands)` starts at `max(1, numOperands)`. -/
def resetCounters (g : AsyncGraph F) : List Nat := g.mArgumentsNotReady.map (max 1)

/-! ## What the executor reads -/

/-- `mNameAndAsyncIdPair[name]`. -/
def asyncId (g : AsyncGraph F) (name : String) : Nat := (g.mNameAndAsyncIdPair.lookup name).getD 0

/-- `mAsyncValueInfos[r].mUserCount`. -/
def userCount (g : AsyncGraph F) (r : Nat) : Nat := g.mUserCounts.getD r 0

/-- `argumentsIdx` of `ProcessReadyKernel`. -/
def argumentsIdx (g : AsyncGraph F) (k : Nat) : List Nat :=
  (g.mAsyncNodes[k]?.elim [] AsyncNode.mInputNames).map g.asyncId

/-- `resultsIndex` of `ProcessReadyKernel`. -/
def resultsIndex (g : AsyncGraph F) (k : Nat) : List Nat :=
  (g.mAsyncNodes[k]?.elim [] AsyncNode.mOutputNames).map g.asyncId

/-- `GetNextUsedBys`. -/
def getNextUsedBys (g : AsyncGraph F) (k resultNumber : Nat) : List Nat :=
  (g.mUsedByKernlTable.getD k []).getD resultNumber []

/-- The position of the first node without inputs: the start node. -/
def startNode (g : AsyncGraph F) : Option Nat :=
  g.mAsyncNodes.findIdx? fun n => n.getNumInputs == 0

/-- `InitializeResultRegisters`. -/
def resultRegs (g : AsyncGraph F) : List Nat :=
  (g.mNameAndAsyncIdPair.filter fun p => g.userCount p.2 == 0).map Prod.snd

end AsyncGraph

end AsyncLib
