import Mathlib.Data.List.Sort
import AsyncLib.Lib.Dataflow
import AsyncLib.Runtime.Wiring

/-!
# Sequential evaluation of a graph

What a graph computes, without threads, registers and references: the nodes are evaluated one after
the other in a topological order.

* `AsyncNode.results`: the results of a node. An erroneous input is passed on to every output, and
  then the node's function is not called.
* `Topological`, `exists_topological`: the orders of evaluation.
* `seqEval`: the value of every name.
* `Specified`: the same in terms of registers, which is what the proofs about the executor use
  (`specified_seqEval`).
-/

namespace AsyncLib

/-- The last error among `ins`. -/
def lastError {V E : Type} (ins : List (Except E V)) : Option E :=
  (ins.filterMap fun o => match o with
    | .error e => some e
    | .ok _ => none).getLast?

/-- The payloads among `ins`. -/
def payloads {V E : Type} (ins : List (Except E V)) : List V :=
  ins.filterMap fun o => match o with
    | .error _ => none
    | .ok v => some v

namespace AsyncNode

variable {F V E : Type} (eval : F → List V → List (Except E V)) (n : AsyncNode F)

/-- The results of a node, from the values of its inputs. -/
def results (ins : List (Except E V)) : List (Except E V) :=
  match lastError ins with
  | some e => List.replicate n.getNumResults (.error e)
  | none => eval n.mFunc (payloads ins)

/-- The node as a rule. -/
def rule : Dataflow.Rule String (Except E V) := ⟨n.mInputNames, n.mOutputNames, n.results eval⟩

end AsyncNode

namespace AsyncGraph

variable {F V E : Type}

/-- The nodes but `start`, such that each comes after those whose outputs it reads. -/
structure Topological (nodes : List (AsyncNode F)) (start : Nat) (topo : List Nat) : Prop where
  nodup : topo.Nodup
  mem_iff : ∀ k, k ∈ topo ↔ k < nodes.length ∧ k ≠ start
  sorted : topo.Pairwise fun k n => ¬ Feeds nodes n k

/-- The value of every name after the evaluation of the nodes in the order `topo`. -/
def seqEval (eval : F → List V → List (Except E V)) (nodes : List (AsyncNode F)) (topo : List Nat)
    (env : String → Option (Except E V)) : String → Option (Except E V) :=
  Dataflow.eval (topo.filterMap fun k => nodes[k]?.map (AsyncNode.rule eval)) env

/-- The outputs of the start node have the values of the arguments. -/
def startEnv {α : Type} (nodes : List (AsyncNode F)) (start : Nat) (arguments : List α)
    (value : α → Option (Except E V)) : String → Option (Except E V) :=
  fun x => (((nodes[start]?.elim [] AsyncNode.mOutputNames).zip arguments).lookup x).bind value

section Order

variable {nodes : List (AsyncNode F)} {start : Nat} {topo : List Nat}

/-- Some nodes of an acyclic graph, by rank. -/
theorem exists_sorted (hac : ∀ k, ¬ Relation.TransGen (Feeds nodes) k k) (l : List Nat) :
    ∃ topo : List Nat, topo.Perm l ∧ topo.Pairwise fun k n => ¬ Feeds nodes n k := by
  let le : Nat → Nat → Prop := fun k n => rank nodes k ≤ rank nodes n
  have : DecidableRel le := fun k n => inferInstanceAs (Decidable (_ ≤ _))
  have : Std.Total le := ⟨fun k n => Nat.le_total _ _⟩
  have : IsTrans Nat le := ⟨fun _ _ _ h h' => Nat.le_trans h h'⟩
  refine ⟨l.insertionSort le, List.perm_insertionSort le l, ?_⟩
  refine (List.pairwise_insertionSort le l).imp fun h hf => ?_
  exact Nat.not_lt_of_le h (rank_lt hac hf)

/-- There is an order of evaluation: by rank. -/
theorem exists_topological (hw : WellFormed nodes) (start : Nat) :
    ∃ topo, Topological nodes start topo := by
  obtain ⟨topo, hperm, hsorted⟩ := exists_sorted hw.acyclic
    ((List.range nodes.length).filter fun k => k ≠ start)
  refine ⟨topo, hperm.nodup_iff.mpr (List.nodup_range.filter _), fun k => ?_, hsorted⟩
  rw [hperm.mem_iff]
  simp

/-- The rules of sorted nodes can be evaluated, where their outputs have no values yet. -/
theorem ordered_rules (hu : UniqueProducer nodes) (hac : ∀ k, ¬ Relation.TransGen (Feeds nodes) k k)
    (hnodup : topo.Nodup) (hsorted : topo.Pairwise fun k n => ¬ Feeds nodes n k)
    (eval : F → List V → List (Except E V)) {env : String → Option (Except E V)}
    (hfresh : ∀ k ∈ topo, ∀ n, nodes[k]? = some n → ∀ x ∈ n.mOutputNames, env x = none) :
    Dataflow.Ordered (topo.filterMap fun k => nodes[k]?.map (AsyncNode.rule eval)) env := by
  have hmem : ∀ {m}, m ∈ topo.filterMap (fun k => nodes[k]?.map (AsyncNode.rule eval)) →
      ∃ k n, k ∈ topo ∧ nodes[k]? = some n ∧ m = n.rule eval := by
    intro m hm
    obtain ⟨k, hk, he⟩ := List.mem_filterMap.mp hm
    obtain ⟨n, hn, rfl⟩ := Option.map_eq_some_iff.mp he
    exact ⟨k, n, hk, hn, rfl⟩
  refine ⟨?_, fun m hm x hx => ?_, ?_, fun m hm x hx hxo => ?_⟩
  · rw [List.nodup_flatMap]
    refine ⟨fun m hm => ?_, ?_⟩
    · obtain ⟨k, n, -, hn, rfl⟩ := hmem hm
      exact (List.nodup_flatMap.mp hu.nodup).1 n (List.mem_of_getElem? hn)
    · rw [List.pairwise_filterMap]
      refine hnodup.imp fun {k k'} hne m hm m' hm' x hx hx' => hne ?_
      obtain ⟨n, hn, rfl⟩ := Option.map_eq_some_iff.mp hm
      obtain ⟨n', hn', rfl⟩ := Option.map_eq_some_iff.mp hm'
      obtain ⟨j, hj⟩ := List.mem_iff_getElem?.mp hx
      obtain ⟨j', hj'⟩ := List.mem_iff_getElem?.mp hx'
      exact (hu.position hn hn' hj hj').1
  · obtain ⟨k, n, hk, hn, rfl⟩ := hmem hm
    exact hfresh k hk n hn x hx
  · rw [List.pairwise_filterMap]
    refine hsorted.imp fun {k k'} hno m hm m' hm' x hx hx' => hno ?_
    obtain ⟨n, hn, rfl⟩ := Option.map_eq_some_iff.mp hm
    obtain ⟨n', hn', rfl⟩ := Option.map_eq_some_iff.mp hm'
    exact ⟨n', n, x, hn', hn, hx', hx⟩
  · obtain ⟨k, n, -, hn, rfl⟩ := hmem hm
    exact hac k (.single ⟨n, n, x, hn, hn, hxo, hx⟩)

/-- The rules of a topological order can be evaluated. -/
theorem Topological.ordered (ht : Topological nodes start topo) (hw : WellFormed nodes)
    {α : Type} (arguments : List α) (value : α → Option (Except E V))
    (eval : F → List V → List (Except E V)) :
    Dataflow.Ordered (topo.filterMap fun k => nodes[k]?.map (AsyncNode.rule eval))
      (startEnv nodes start arguments value) := by
  refine ordered_rules hw.unique hw.acyclic ht.nodup ht.sorted eval fun k hk n hn x hx => ?_
  obtain ⟨j, hj⟩ := List.mem_iff_getElem?.mp hx
  rw [startEnv, Dataflow.lookup_zip_of_not_mem, Option.bind_none]
  intro hxs
  cases hst : nodes[start]? with
  | none => rw [hst] at hxs; cases hxs
  | some p =>
    rw [hst] at hxs
    obtain ⟨j', hj'⟩ := List.mem_iff_getElem?.mp hxs
    exact ((ht.mem_iff k).mp hk).2 (hw.unique.position hn hst hj hj').1

end Order

/-! ## Registers -/

/-- The value of the name of register `r`. -/
def regValue (g : AsyncGraph F) (env : String → Option (Except E V)) (r : Nat) :
    Option (Except E V) := (g.mNameAndAsyncIdPair.find? fun p => p.2 == r).bind fun p => env p.1

/-- `spec` is the value of each register: the start registers have the values of the arguments, and
the results of a kernel are computed from its arguments. -/
structure Specified {α : Type} (g : AsyncGraph F) (start : Nat)
    (eval : F → List V → List (Except E V)) (arguments : List α)
    (value : α → Option (Except E V)) (spec : Nat → Option (Except E V)) : Prop where
  argument : ∀ j, j < g.numResults start → spec (g.resultReg start j) = arguments[j]?.bind value
  kernel : ∀ k n, k ≠ start → g.mAsyncNodes[k]? = some n → ∀ ins : List (Except E V),
    (g.argumentsIdx k).map spec = ins.map some → ∀ j, j < g.numResults k →
      spec (g.resultReg k j) = (n.results eval ins)[j]?

section Registers

variable {nodes : List (AsyncNode F)} {order : HashOrder} {start : Nat} {topo : List Nat}

theorem regValue_of_mem {x : String} {r : Nat} (h : (x, r) ∈ (build order nodes).mNameAndAsyncIdPair)
    (env : String → Option (Except E V)) : regValue (build order nodes) env r = env x := by
  unfold regValue
  cases hf : (build order nodes).mNameAndAsyncIdPair.find? fun p => p.2 == r with
  | none => exact absurd (beq_self_eq_true r) (List.find?_eq_none.mp hf (x, r) h)
  | some p =>
    have h1 := List.mem_of_find?_eq_some hf
    have h2 : p.2 = r := by simpa using List.find?_some hf
    have : p = (x, r) := List.inj_on_of_nodup_map ids_nodup h1 h h2
    rw [this]
    rfl

/-- The sequential evaluation, in registers. -/
theorem specified_seqEval (hw : WellFormed nodes) (ht : Topological nodes start topo) {α : Type}
    (arguments : List α) (value : α → Option (Except E V))
    (eval : F → List V → List (Except E V)) :
    Specified (build order nodes) start eval arguments value (regValue (build order nodes)
      (seqEval eval nodes topo (startEnv nodes start arguments value))) where
  argument := by
    intro j hj
    obtain ⟨n, x, hn, hx, hreg, -⟩ := result_name hj
    have hxn := List.mem_of_getElem? hx
    rw [hreg, regValue_of_mem (mem_ids (output_mem_keys (List.mem_of_getElem? hn) hxn)), seqEval,
      Dataflow.eval_of_not_mem]
    · rw [startEnv, hn, Option.elim_some, Dataflow.lookup_zip ?_ hx]
      exact (List.nodup_flatMap.mp hw.unique.nodup).1 n (List.mem_of_getElem? hn)
    · intro m hm hxm
      obtain ⟨k, hk, he⟩ := List.mem_filterMap.mp hm
      obtain ⟨n', hn', rfl⟩ := Option.map_eq_some_iff.mp he
      obtain ⟨j', hj'⟩ := List.mem_iff_getElem?.mp hxm
      exact ((ht.mem_iff k).mp hk).2 (hw.unique.position hn' hn hj' hx).1
  kernel := by
    intro k n hk hn ins hins j hj
    change nodes[k]? = some n at hn
    obtain ⟨n', x, hn', hx, hreg, -⟩ := result_name hj
    rw [hn] at hn'
    cases hn'
    have hmem := List.mem_of_getElem? hn
    rw [hreg, regValue_of_mem (mem_ids (output_mem_keys hmem (List.mem_of_getElem? hx)))]
    refine Dataflow.eval_eq (ht.ordered hw arguments value eval) (n := n.rule eval) ?_ ?_ hx
    · have hlt := (List.getElem?_eq_some_iff.mp hn).1
      exact List.mem_filterMap.mpr ⟨k, (ht.mem_iff k).mpr ⟨hlt, hk⟩, by rw [hn]; rfl⟩
    · rw [← hins]
      show n.mInputNames.map _ = ((nodes[k]?.elim [] AsyncNode.mInputNames).map _).map _
      rw [hn, Option.elim_some, List.map_map]
      exact List.map_congr_left fun y hy =>
        (regValue_of_mem (mem_ids (input_mem_keys hmem hy)) _).symm

end Registers

end AsyncGraph

end AsyncLib
