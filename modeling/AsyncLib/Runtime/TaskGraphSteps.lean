import Mathlib.Algebra.BigOperators.Group.Finset.Basic
import Mathlib.Algebra.Order.BigOperators.Group.Finset
import Mathlib.Data.Finset.Sort
import Mathlib.Order.WellFoundedSet
import AsyncLib.Runtime.TaskGraph

/-!
# Built graphs, and the steps of `TaskGraphExecutor`

* `TaskGraph.Built`: what `emplace`, `AddDependency`, `AddSuccessor` and `BuildGraph` establish. Every
  dependency is a successor the other way, as many times (`built_build`).
* `released g finished j`: the decrements of the counter of `j` that the finished nodes owe. It is at
  most the number of dependencies (`released_le`).
* `running`: the operations of the queue and of all threads. `Does`, `step_does`: a step replaces
  some of them by others and changes the shared state.
-/

namespace AsyncLib

open Sys Agenda

namespace TaskGraph

/-! ## Built graphs -/

/-- The edges are recorded at both ends, and lead to nodes of the graph. -/
structure Balanced (g : TaskGraph) : Prop where
  edges : ∀ j k, (g.node j).mDependencies.count k = (g.node k).mSuccessories.count j
  dependency_lt : ∀ {j k}, k ∈ (g.node j).mDependencies → k < g.numNodes

/-- What `BuildGraph` establishes. -/
structure Built (g : TaskGraph) : Prop extends Balanced g where
  index : ∀ {j}, j < g.numNodes → g.mNodeIndexInfo j = j
  count : ∀ j, g.mNodeCountInfo j = g.getNumDependencies j

variable {g : TaskGraph}

theorem node_of_le {k : Nat} (h : g.numNodes ≤ k) : g.node k = {} := by
  rw [node, List.getD_eq_getElem?_getD, List.getElem?_eq_none h]
  rfl

theorem getNumDependencies_of_le {k : Nat} (h : g.numNodes ≤ k) : g.getNumDependencies k = 0 := by
  rw [getNumDependencies, node_of_le h]
  rfl

theorem balanced_empty : Balanced {} where
  edges j k := by simp [node]
  dependency_lt h := by simp [node] at h

theorem node_emplace (k : Nat) : g.emplace.node k = g.node k := by
  unfold node emplace
  rw [List.getD_eq_getElem?_getD, List.getD_eq_getElem?_getD, List.getElem?_append]
  split
  · rfl
  · rename_i h
    rw [List.getElem?_eq_none (Nat.not_lt.mp h)]
    cases k - g.mTaskNodes.length <;> simp

theorem Balanced.emplace (h : g.Balanced) : g.emplace.Balanced where
  edges j k := by
    rw [node_emplace, node_emplace]
    exact h.edges j k
  dependency_lt hk := by
    rw [node_emplace] at hk
    have := h.dependency_lt hk
    simp only [numNodes, TaskGraph.emplace, List.length_append] at this ⊢
    omega

@[simp] theorem numNodes_pushSuccessor (a b : Nat) : (g.pushSuccessor a b).numNodes = g.numNodes := by
  simp [numNodes, pushSuccessor]

@[simp] theorem numNodes_pushDependency (a b : Nat) :
    (g.pushDependency a b).numNodes = g.numNodes := by
  simp [numNodes, pushDependency]

theorem node_pushSuccessor {a b : Nat} (ha : a < g.numNodes) (k : Nat) :
    (g.pushSuccessor a b).node k = if k = a then
      { g.node k with mSuccessories := (g.node k).mSuccessories ++ [b] } else g.node k := by
  unfold node pushSuccessor
  rw [List.getD_eq_getElem?_getD, List.getD_eq_getElem?_getD, List.getElem?_modify]
  split
  · rename_i h
    subst h
    rw [if_pos rfl, List.getElem?_eq_getElem ha]
    rfl
  · rename_i h
    rw [if_neg fun e => h e.symm]
    cases g.mTaskNodes[k]? <;> rfl

theorem node_pushDependency {a b : Nat} (ha : a < g.numNodes) (k : Nat) :
    (g.pushDependency a b).node k = if k = a then
      { g.node k with mDependencies := (g.node k).mDependencies ++ [b] } else g.node k := by
  unfold node pushDependency
  rw [List.getD_eq_getElem?_getD, List.getD_eq_getElem?_getD, List.getElem?_modify]
  split
  · rename_i h
    subst h
    rw [if_pos rfl, List.getElem?_eq_getElem ha]
    rfl
  · rename_i h
    rw [if_neg fun e => h e.symm]
    cases g.mTaskNodes[k]? <;> rfl

/-- One more edge from `source` to `target`, at both ends. -/
theorem Balanced.edge (h : g.Balanced) {source target : Nat} (hs : source < g.numNodes)
    (ht : target < g.numNodes) :
    ((g.pushSuccessor source target).pushDependency target source).Balanced := by
  have hdeps : ∀ k, (((g.pushSuccessor source target).pushDependency target source).node
      k).mDependencies = (g.node k).mDependencies ++ if k = target then [source] else [] := by
    intro k
    rw [node_pushDependency (by simpa using ht), node_pushSuccessor hs]
    split <;> split <;> simp
  have hsucc : ∀ k, (((g.pushSuccessor source target).pushDependency target source).node
      k).mSuccessories = (g.node k).mSuccessories ++ if k = source then [target] else [] := by
    intro k
    rw [node_pushDependency (by simpa using ht), node_pushSuccessor hs]
    split <;> split <;> simp
  refine ⟨fun j k => ?_, fun {j k} hk => ?_⟩
  · rw [hdeps, hsucc, List.count_append, List.count_append, h.edges j k]
    by_cases hj : j = target
    · by_cases hk : k = source
      · simp [hj, hk]
      · simp [hj, hk, Ne.symm hk]
    · by_cases hk : k = source
      · simp [hj, hk, Ne.symm hj]
      · simp [hj, hk]
  · rw [hdeps, List.mem_append] at hk
    simp only [numNodes_pushDependency, numNodes_pushSuccessor]
    rcases hk with hk | hk
    · exact h.dependency_lt hk
    · split at hk
      · rw [List.mem_singleton.mp hk]
        exact hs
      · cases hk

theorem Balanced.edit (h : g.Balanced) (e : Edit) : (g.edit e).Balanced := by
  cases e with
  | emplace => exact h.emplace
  | addDependency this node =>
    simp only [TaskGraph.edit]
    split
    · rename_i hlt
      exact h.edge hlt.2 hlt.1
    · exact h
  | addSuccessor this node =>
    simp only [TaskGraph.edit]
    split
    · rename_i hlt
      exact h.edge hlt.1 hlt.2
    · exact h

/-- What the first rounds of the loop of `BuildGraph` leave. -/
theorem foldl_buildNode (is : List Nat) :
    (is.foldl buildNode g).mTaskNodes = g.mTaskNodes ∧
    (∀ j, (is.foldl buildNode g).mNodeIndexInfo j = if j ∈ is then j else g.mNodeIndexInfo j) ∧
    ∀ j, (is.foldl buildNode g).mNodeCountInfo j =
      if j ∈ is then g.getNumDependencies j else g.mNodeCountInfo j := by
  induction is generalizing g with
  | nil => simp
  | cons i is ih =>
    obtain ⟨h1, h2, h3⟩ := ih (g := g.buildNode i)
    refine ⟨h1, fun j => ?_, fun j => ?_⟩
    · rw [List.foldl_cons, h2 j]
      by_cases hj : j ∈ is
      · simp [hj]
      · by_cases hi : j = i
        · subst hi
          simp [hj, buildNode]
        · simp [hj, hi, buildNode]
    · rw [List.foldl_cons, h3 j]
      by_cases hj : j ∈ is
      · simp only [if_pos hj, if_pos (List.mem_cons_of_mem i hj)]
        rfl
      · by_cases hi : j = i
        · subst hi
          simp [hj, buildNode]
        · simp [hj, hi, buildNode]

theorem foldl_edit (edits : List Edit) (h : g.Balanced)
    (hc : ∀ j, g.mNodeCountInfo j = 0) :
    (edits.foldl TaskGraph.edit g).Balanced ∧ ∀ j, (edits.foldl TaskGraph.edit g).mNodeCountInfo j = 0 := by
  induction edits generalizing g with
  | nil => exact ⟨h, hc⟩
  | cons e edits ih =>
    refine ih (h.edit e) ?_
    cases e with
    | emplace => exact hc
    | addDependency this node =>
      simp only [TaskGraph.edit]
      split <;> exact hc
    | addSuccessor this node =>
      simp only [TaskGraph.edit]
      split <;> exact hc

theorem built_build (edits : List Edit) : (build edits).Built := by
  obtain ⟨hb, hc⟩ := foldl_edit edits balanced_empty fun _ => rfl
  set g := edits.foldl TaskGraph.edit {}
  obtain ⟨h1, h2, h3⟩ := foldl_buildNode (g := g) (List.range g.numNodes)
  have hnode : ∀ k, (build edits).node k = g.node k := fun k =>
    congrArg (fun l : List TaskNode => l.getD k {}) h1
  have hnum : (build edits).numNodes = g.numNodes := congrArg List.length h1
  refine ⟨⟨fun j k => ?_, fun {j k} hk => ?_⟩, fun {j} hj => ?_, fun j => ?_⟩
  · rw [hnode, hnode]
    exact hb.edges j k
  · rw [hnode] at hk
    rw [hnum]
    exact hb.dependency_lt hk
  · rw [hnum] at hj
    exact (h2 j).trans (if_pos (List.mem_range.mpr hj))
  · refine (h3 j).trans ?_
    have hdeps : (build edits).getNumDependencies j = g.getNumDependencies j := by
      rw [getNumDependencies, hnode, getNumDependencies]
    rw [hdeps]
    split
    · rfl
    · rename_i hj
      rw [hc, getNumDependencies_of_le (Nat.not_lt.mp fun h => hj (List.mem_range.mpr h))]

/-- Induction along the edges of an acyclic graph. -/
theorem Built.induction (hb : g.Built) (ha : g.Acyclic) {P : Nat → Prop}
    (step : ∀ j, (∀ k, g.Edge k j → P k) → P j) (j : Nat) : P j := by
  have : IsStrictOrder Nat (Relation.TransGen g.Edge) :=
    { irrefl := ha, trans := fun _ _ _ => Relation.TransGen.trans }
  have hwf : (Set.Iio g.numNodes).WellFoundedOn (Relation.TransGen g.Edge) :=
    (Set.finite_Iio g.numNodes).wellFoundedOn
  refine step j fun k hk => ?_
  refine hwf.induction (Set.mem_Iio.mpr (hb.dependency_lt hk)) fun i hi ih => ?_
  exact step i fun m hm => ih m (Set.mem_Iio.mpr (hb.dependency_lt hm)) (.single hm)

/-! ## Released edges -/

/-- The decrements of the counter of `j` that the nodes in `finished` owe. -/
def released (g : TaskGraph) (finished : List Nat) (j : Nat) : Nat :=
  (finished.map fun k => (g.node k).mSuccessories.count j).sum

theorem Balanced.released_eq_sum (h : g.Balanced) {finished : List Nat} (hn : finished.Nodup)
    (j : Nat) :
    g.released finished j = ∑ k ∈ finished.toFinset, (g.node j).mDependencies.count k := by
  rw [List.sum_toFinset _ hn, released]
  exact congrArg List.sum (List.map_congr_left fun k _ => (h.edges j k).symm)

/-- The number of dependencies, counted over any nodes that include them. -/
theorem sum_count_dependencies {s : Finset Nat} {j : Nat} (hs : ∀ k, g.Edge k j → k ∈ s) :
    ∑ k ∈ s, (g.node j).mDependencies.count k = g.getNumDependencies j := by
  have hmem : ∀ k ∈ (↑(g.node j).mDependencies : Multiset Nat), k ∈ s := fun k hk => hs k hk
  have hsum := Multiset.sum_count_eq_card hmem
  simp only [Multiset.coe_count, Multiset.coe_card] at hsum
  exact hsum

/-- When every dependency has finished, every decrement is owed. -/
theorem Balanced.released_eq (h : g.Balanced) {finished : List Nat} (hn : finished.Nodup) {j : Nat}
    (hall : ∀ k, g.Edge k j → k ∈ finished) : g.released finished j = g.getNumDependencies j := by
  rw [h.released_eq_sum hn]
  exact sum_count_dependencies fun k hk => List.mem_toFinset.mpr (hall k hk)

theorem Balanced.released_le (h : g.Balanced) {finished : List Nat} (hn : finished.Nodup) (j : Nat) :
    g.released finished j ≤ g.getNumDependencies j :=
  calc g.released finished j
      ≤ ∑ k ∈ finished.toFinset ∪ (g.node j).mDependencies.toFinset,
          (g.node j).mDependencies.count k := by
        rw [h.released_eq_sum hn]
        exact Finset.sum_le_sum_of_subset Finset.subset_union_left
    _ = g.getNumDependencies j := sum_count_dependencies fun k hk =>
        Finset.mem_union_right _ (List.mem_toFinset.mpr hk)

/-- As long as a dependency is missing, the counter is not at its end. -/
theorem Balanced.released_lt (h : g.Balanced) {finished : List Nat} (hn : finished.Nodup) {k j : Nat}
    (he : g.Edge k j) (hk : k ∉ finished) : g.released finished j < g.getNumDependencies j := by
  have hle := h.released_le (List.nodup_cons.mpr ⟨hk, hn⟩) j
  have hpos : 0 < (g.node j).mDependencies.count k := List.count_pos_iff.mpr he
  rw [h.edges] at hpos
  simp only [released, List.map_cons, List.sum_cons] at hle ⊢
  omega

end TaskGraph

/-! ## Steps -/

namespace TaskGraphExecutor

/-- The operations of a frame; a ready node is one that is going to be processed. -/
def Frame.ops (f : Frame) : List Op := f.ready.map .processReadyNodeIndex ++ f.code

/-- The operations of the queue and of the threads. -/
def St.running (s : St) : Multiset Op :=
  pool (fun k => (taskFrame k).ops) (fun st => st.flatMap Frame.ops) s.queue s.threads

/-- What a step does to the shared state and to the agenda. -/
inductive Does (g : TaskGraph) (sh : Shared) : List Op → Shared → List Op → Prop
  | skip : Does g sh [] sh []
  | readyNil : Does g sh [.processReadyNodeIndexs] sh []
  | readyCons {k : Nat} {ks : List Nat} :
      Does g sh (.processReadyNodeIndexs :: .processReadyNodeIndex k ::
        ks.map .processReadyNodeIndex) sh
        (ks.map .enqueueWork ++ [.processReadyNodeIndex k, .processReadyNodeIndexs])
  | enqueue {k : Nat} : Does g sh [.enqueueWork k] { sh with mRefCount := sh.mRefCount + 1 }
      (taskFrame k).ops
  | call {k : Nat} : Does g sh [.processReadyNodeIndex k] { sh with called := k :: sh.called }
      [.returnNode k]
  | returned {k : Nat} : Does g sh [.returnNode k] { sh with returned := k :: sh.returned }
      [.decreaseTotal k]
  | total {k : Nat} : Does g sh [.decreaseTotal k]
      { sh with mTotalTaskCount := sh.mTotalTaskCount - 1, finished := k :: sh.finished }
      ((g.node k).mSuccessories.map .decreaseCount ++
        if sh.mTotalTaskCount = 1 then [.emplaceFinish] else [])
  | decrease {j : Nat} : Does g sh [.decreaseCount j]
      { sh with
        mNodeCountInfo := Function.update sh.mNodeCountInfo j (sh.mNodeCountInfo j - 1) }
      (if sh.mNodeCountInfo j = 1 then [.processReadyNodeIndex (g.mNodeIndexInfo j)] else [])
  | emplaceFinish : Does g sh [.emplaceFinish] { sh with mFinishChain := sh.mFinishChain + 1 } []
  | await (hf : sh.mFinishChain ≠ 0) : Does g sh [.await] sh []
  | dropRef : Does g sh [.dropRef] { sh with mRefCount := sh.mRefCount - 1 } []

variable {g : TaskGraph} {sync : Bool}

/-- All operations that an effect puts on the agenda. -/
def Effect.ops (e : Effect) : List Op :=
  (e.queued.flatMap fun k => (taskFrame k).ops) ++ e.frames.flatMap Frame.ops ++
    e.ready.map .processReadyNodeIndex ++ e.code

theorem exec_does {sh sh' : Shared} {inline : Bool} {op : Op} {e : Effect}
    (he : exec g sh inline op = some (sh', e)) : Does g sh [op] sh' e.ops := by
  cases op with
  | processReadyNodeIndexs => cases he
  | enqueueWork k =>
    cases he
    have hops : (if inline then { frames := [taskFrame k] } else { queued := [k] } : Effect).ops =
        (taskFrame k).ops := by
      cases inline <;> simp [Effect.ops]
    rw [hops]
    exact .enqueue
  | processReadyNodeIndex k =>
    cases he
    exact .call
  | returnNode k =>
    cases he
    exact .returned
  | decreaseTotal k =>
    cases he
    exact .total
  | decreaseCount j =>
    cases he
    have hops : ({ ready := if sh.mNodeCountInfo j = 1 then [g.mNodeIndexInfo j] else [] }
        : Effect).ops =
        if sh.mNodeCountInfo j = 1 then [.processReadyNodeIndex (g.mNodeIndexInfo j)] else [] := by
      simp only [Effect.ops]
      split <;> rfl
    rw [hops]
    exact .decrease
  | emplaceFinish =>
    cases he
    exact .emplaceFinish
  | await =>
    simp only [exec] at he
    split at he
    · rename_i hf
      cases he
      exact .await hf
    · cases he
  | dropRef =>
    cases he
    exact .dropRef

/-- The agenda of a thread whose top frame executes `op`. -/
theorem replaced_exec {f : Frame} {op : Op} {rest : List Op} (hf : f.code = op :: rest) (e : Effect)
    (stack : List Frame) :
    Replaced ((f :: stack).flatMap Frame.ops) [op]
      (e.frames.flatMap Frame.ops ++ e.ready.map .processReadyNodeIndex ++ e.code)
      ((e.frames ++ ⟨f.ready ++ e.ready, e.code ++ rest⟩ :: stack).flatMap Frame.ops) := by
  refine ⟨f.ready.map .processReadyNodeIndex ++ rest ++ stack.flatMap Frame.ops, ?_, ?_⟩
  · rw [← Multiset.coe_eq_coe]
    simp only [List.flatMap_cons, Frame.ops, hf, ← Multiset.coe_add, ← Multiset.singleton_add,
      ← Multiset.cons_coe, Multiset.coe_nil]
    abel
  · rw [← Multiset.coe_eq_coe]
    simp only [List.flatMap_append, List.flatMap_cons, Frame.ops, List.map_append,
      ← Multiset.coe_add]
    abel

theorem runFrame_does {s s' : St} {t : Nat} {inline : Bool} {f : Frame} {stack : List Frame}
    (ht : s.threads[t]? = some (f :: stack)) (hs : runFrame g s t inline f stack = some s') :
    ∃ old new R, Does g s.sh old s'.sh new ∧ s.running = ↑old + R ∧ s'.running = ↑new + R := by
  unfold runFrame at hs
  split at hs
  · rename_i hcode
    split at hs
    · rename_i hready
      cases hs
      have hrep : Replaced ((f :: stack).flatMap Frame.ops) [] [] (stack.flatMap Frame.ops) := by
        refine ⟨stack.flatMap Frame.ops, ?_, .refl _⟩
        simp [Frame.ops, hcode, hready]
      obtain ⟨R, h1, h2⟩ := pool_set [] ht hrep
      exact ⟨[], [], R, .skip, h1, by simpa [St.running] using h2⟩
    · cases hs
  · rename_i op rest hcode
    split at hs
    · rename_i hready
      cases hs
      have hrep : Replaced ((f :: stack).flatMap Frame.ops) [.processReadyNodeIndexs] []
          ((⟨[], rest⟩ :: stack).flatMap Frame.ops) := by
        refine ⟨rest ++ stack.flatMap Frame.ops, ?_, ?_⟩
        · simp [Frame.ops, hcode, hready]
        · simp [Frame.ops]
      obtain ⟨R, h1, h2⟩ := pool_set [] ht hrep
      exact ⟨_, _, R, .readyNil, h1, by simpa [St.running] using h2⟩
    · rename_i k ks hready
      cases hs
      have hrep : Replaced ((f :: stack).flatMap Frame.ops)
          (.processReadyNodeIndexs :: .processReadyNodeIndex k :: ks.map .processReadyNodeIndex)
          (ks.map .enqueueWork ++ [.processReadyNodeIndex k, .processReadyNodeIndexs])
          ((⟨[], ks.map .enqueueWork ++ .processReadyNodeIndex k :: .processReadyNodeIndexs ::
            rest⟩ :: stack).flatMap Frame.ops) := by
        refine ⟨rest ++ stack.flatMap Frame.ops, ?_, ?_⟩
        · rw [← Multiset.coe_eq_coe]
          simp only [List.flatMap_cons, Frame.ops, hcode, hready, List.map_cons,
            ← Multiset.coe_add, ← Multiset.cons_coe, ← Multiset.singleton_add]
          abel
        · simp [Frame.ops]
      obtain ⟨R, h1, h2⟩ := pool_set [] ht hrep
      exact ⟨_, _, R, .readyCons, h1, by simpa [St.running] using h2⟩
    · rw [Option.map_eq_some_iff] at hs
      obtain ⟨⟨sh', e⟩, he, hs⟩ := hs
      cases hs
      obtain ⟨R, h1, h2⟩ := pool_set e.queued ht (replaced_exec hcode e stack)
      refine ⟨_, e.ops, R, exec_does he, h1, ?_⟩
      refine h2.trans ?_
      rw [Effect.ops]
      simp only [List.append_assoc]

/-- Every step of the system is one of those of `Does`. -/
theorem step_does {s s' : St} {l : Label} (hs : step g s l = some s') :
    ∃ old new R, Does g s.sh old s'.sh new ∧ s.running = ↑old + R ∧ s'.running = ↑new + R := by
  cases l with
  | run t inline =>
    simp only [step] at hs
    split at hs
    · rename_i f stack ht
      exact runFrame_does ht hs
    · cases hs
  | pick k =>
    simp only [step] at hs
    split at hs
    · rename_i hk
      cases hs
      exact ⟨[], [], s.running, .skip, by simp, by
        rw [St.running, pool_pick hk (by simp)]
        simp [St.running]⟩
    · cases hs

end TaskGraphExecutor

end AsyncLib
