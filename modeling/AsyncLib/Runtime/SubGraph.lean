import AsyncLib.Lib.Worklist
import AsyncLib.Runtime.Sequential

/-!
# `SubGraph`

`async/runtime/graph.cpp`: the graph of the nodes that some names need. A node is named by its position,
since every `AsyncNode` is an object of its own.

* `subGraph`: the function, with a bound on the rounds of its loop. A name that no node produces has a
  null node, which is read (`none`).
* `Traversal.Inv`: the loop does the rounds of a `Worklist` and emplaces the visited nodes.
* `subGraph_spec`: the loop ends, with copies of the nodes that the names need, which is a graph of its
  own and computes what the whole graph computes.
-/

namespace AsyncLib

namespace AsyncGraph

variable {F : Type}

/-! ## The code -/

/-- `nameNodeMap`. -/
def nameNodeMap (nodes : List (AsyncNode F)) : String → Option Nat :=
  nodes.zipIdx.foldl (fun m p =>
    p.1.mOutputNames.foldl (fun m outName => Function.update m outName (some p.2)) m) fun _ => none

/-- The variables of `SubGraph`. -/
structure Traversal (F : Type) where
  queuedNames : List String
  traveledNodes : List Nat
  graph : AsyncGraph F

/-- A round for the name `name`, which is popped at its end. -/
def Traversal.round (nodes : List (AsyncNode F)) (name : String) (t : Traversal F) :
    Option (Traversal F) :=
  (nameNodeMap nodes name).bind fun node =>
    if node ∈ t.traveledNodes then some { t with queuedNames := t.queuedNames.tail }
    else nodes[node]?.map fun n =>
      { queuedNames := (t.queuedNames ++ n.mInputNames).tail
        traveledNodes := t.traveledNodes ++ [node]
        graph := t.graph.emplace n.mInputNames n.mOutputNames n.mFunc n.mFuncName }

/-- The loop, with at most `fuel` rounds. -/
def Traversal.loop (nodes : List (AsyncNode F)) : Nat → Traversal F → Option (Traversal F)
  | 0, t => if t.queuedNames = [] then some t else none
  | fuel + 1, t =>
    match t.queuedNames.head? with
    | none => some t
    | some name => (t.round nodes name).bind (loop nodes fuel)

/-- `SubGraph`. -/
def subGraph (g : AsyncGraph F) (fuel : Nat) (outputNames : List String) : Option (AsyncGraph F) :=
  (Traversal.loop g.mAsyncNodes fuel ⟨outputNames, [], ofNodes []⟩).map Traversal.graph

/-! ## The producers -/

/-- Node `i` has the name among its outputs. -/
def Makes (nodes : List (AsyncNode F)) (i : Nat) (x : String) : Prop :=
  x ∈ nodes[i]?.elim [] AsyncNode.mOutputNames

/-- The input names of node `i`. -/
def inputsOf (nodes : List (AsyncNode F)) (i : Nat) : List String :=
  nodes[i]?.elim [] AsyncNode.mInputNames

/-- The nodes that produce the names or, transitively, an input of such a node. -/
def Needed (nodes : List (AsyncNode F)) (names : List String) : Nat → Prop :=
  Worklist.Needed (Makes nodes) (inputsOf nodes) names

variable {nodes : List (AsyncNode F)} {names : List String}

theorem Makes.node {i : Nat} {x : String} (h : Makes nodes i x) :
    ∃ n, nodes[i]? = some n ∧ x ∈ n.mOutputNames := by
  rw [Makes] at h
  cases hn : nodes[i]? with
  | none =>
    rw [hn] at h
    cases h
  | some n =>
    rw [hn] at h
    exact ⟨n, rfl, h⟩

theorem makes_iff {i : Nat} {x : String} :
    Makes nodes i x ↔ ∃ n, nodes[i]? = some n ∧ x ∈ n.mOutputNames := by
  refine ⟨Makes.node, ?_⟩
  rintro ⟨n, hn, hx⟩
  rw [Makes, hn]
  exact hx

theorem Makes.unique (hu : UniqueProducer nodes) {i k : Nat} {x : String} (hi : Makes nodes i x)
    (hk : Makes nodes k x) : i = k := by
  obtain ⟨n, hn, hx⟩ := hi.node
  obtain ⟨m, hm, hy⟩ := hk.node
  obtain ⟨j, hj⟩ := List.mem_iff_getElem?.mp hx
  obtain ⟨j', hj'⟩ := List.mem_iff_getElem?.mp hy
  exact (hu.position hn hm hj hj').1

/-- A name among the outputs is made by a node. -/
theorem exists_makes {x : String} (hx : x ∈ nodes.flatMap AsyncNode.mOutputNames) :
    ∃ i, Makes nodes i x := by
  obtain ⟨n, hn, hxn⟩ := List.mem_flatMap.mp hx
  obtain ⟨i, hi⟩ := List.mem_iff_getElem?.mp hn
  exact ⟨i, makes_iff.mpr ⟨n, hi, hxn⟩⟩

theorem inputsOf_eq {i : Nat} {n : AsyncNode F} (hn : nodes[i]? = some n) :
    inputsOf nodes i = n.mInputNames := by
  rw [inputsOf, hn]
  rfl

theorem foldl_nameNodeMap (i : Nat) (xs : List String) (m : String → Option Nat) (x : String) :
    xs.foldl (fun m outName => Function.update m outName (some i)) m x =
      if x ∈ xs then some i else m x := by
  induction xs generalizing m with
  | nil => simp
  | cons y xs ih =>
    rw [List.foldl_cons, ih]
    by_cases hx : x ∈ xs
    · simp [hx]
    · by_cases hy : x = y
      · subst hy
        simp [hx]
      · simp [hx, hy]

theorem nameNodeMap_concat (nodes : List (AsyncNode F)) (n : AsyncNode F) (x : String) :
    nameNodeMap (nodes ++ [n]) x =
      if x ∈ n.mOutputNames then some nodes.length else nameNodeMap nodes x := by
  unfold nameNodeMap
  rw [List.zipIdx_append, List.foldl_append, Nat.zero_add, List.zipIdx_cons, List.foldl_cons,
    List.zipIdx_nil, List.foldl_nil]
  exact foldl_nameNodeMap nodes.length n.mOutputNames _ x

/-- The map finds a node that makes the name. -/
theorem makes_of_nameNodeMap {i : Nat} {x : String} (h : nameNodeMap nodes x = some i) :
    Makes nodes i x := by
  induction nodes using List.reverseRecOn with
  | nil => cases h
  | append_singleton nodes n ih =>
    rw [nameNodeMap_concat] at h
    split at h
    · rename_i hx
      cases h
      exact makes_iff.mpr ⟨n, List.getElem?_concat_length, hx⟩
    · obtain ⟨m, hm, hx⟩ := (ih h).node
      refine makes_iff.mpr ⟨m, ?_, hx⟩
      rw [List.getElem?_append_left (List.getElem?_eq_some_iff.mp hm).1, hm]

/-- The map knows the names that the graph produces. -/
theorem exists_nameNodeMap {x : String} (hx : x ∈ nodes.flatMap AsyncNode.mOutputNames) :
    ∃ i, nameNodeMap nodes x = some i := by
  induction nodes using List.reverseRecOn with
  | nil => cases hx
  | append_singleton nodes n ih =>
    rw [nameNodeMap_concat]
    split
    · exact ⟨_, rfl⟩
    · rename_i hn
      rw [List.flatMap_append, List.mem_append] at hx
      exact ih (hx.resolve_right (by simpa using hn))

/-! ## The loop -/

/-- The nodes at some positions. -/
def copies (nodes : List (AsyncNode F)) (is : List Nat) : List (AsyncNode F) :=
  is.filterMap fun i => nodes[i]?

/-- The queue and the visited nodes. -/
def Traversal.state (t : Traversal F) : Worklist.State String Nat := ⟨t.queuedNames, t.traveledNodes⟩

/-- The rounds to come, at most. -/
def Traversal.work (nodes : List (AsyncNode F)) (t : Traversal F) : Nat :=
  Worklist.work (Finset.range nodes.length) (inputsOf nodes) t.state

/-- What a round keeps: the visited nodes are emplaced, and every queued name has a node. -/
structure Traversal.Inv (nodes : List (AsyncNode F)) (names : List String) (t : Traversal F) : Prop where
  list : Worklist.Inv (Makes nodes) (inputsOf nodes) names t.state
  queued : ∀ x ∈ t.queuedNames, x ∈ nodes.flatMap AsyncNode.mOutputNames
  graph : t.graph = ofNodes (copies nodes t.traveledNodes)

/-- A round ends, and does one unit of work. -/
theorem Traversal.Inv.round (hu : UniqueProducer nodes) {t : Traversal F} (h : t.Inv nodes names)
    {name : String} {queue : List String} (hq : t.queuedNames = name :: queue) :
    ∃ t', t.round nodes name = some t' ∧ t'.Inv nodes names ∧ t'.work nodes + 1 = t.work nodes := by
  obtain ⟨i, hi⟩ := exists_nameNodeMap (h.queued name (hq ▸ List.mem_cons_self))
  have hmakes := makes_of_nameNodeMap hi
  obtain ⟨n, hn, -⟩ := hmakes.node
  have hlist := h.list.visit hq hmakes
  have hlen : i ∈ Finset.range nodes.length :=
    Finset.mem_range.mpr (List.getElem?_eq_some_iff.mp hn).1
  have hwork : Worklist.work (Finset.range nodes.length) (inputsOf nodes)
      (Worklist.visit (inputsOf nodes) i t.state) + 1 =
        Worklist.work (Finset.range nodes.length) (inputsOf nodes) t.state :=
    Worklist.visit_work hlen hq
  have htail : ∀ x ∈ queue, x ∈ nodes.flatMap AsyncNode.mOutputNames :=
    fun x hx => h.queued x (hq ▸ List.mem_cons_of_mem name hx)
  rw [Traversal.round, hi, Option.bind_some]
  by_cases hv : i ∈ t.traveledNodes
  · have he : Worklist.visit (inputsOf nodes) i t.state = ⟨t.queuedNames.tail, t.traveledNodes⟩ :=
      if_pos hv
    rw [he] at hlist hwork
    rw [if_pos hv]
    refine ⟨_, rfl, ⟨hlist, ?_, h.graph⟩, hwork⟩
    rw [hq]
    exact htail
  · have he : Worklist.visit (inputsOf nodes) i t.state =
        ⟨t.queuedNames.tail ++ inputsOf nodes i, t.traveledNodes ++ [i]⟩ := if_neg hv
    rw [he, inputsOf_eq hn, hq, List.tail_cons] at hlist hwork
    rw [if_neg hv, hn, hq, Option.map_some]
    refine ⟨_, rfl, ⟨hlist, fun x hx => ?_, ?_⟩, hwork⟩
    · rcases List.mem_append.mp hx with hx | hx
      · exact htail x hx
      · exact hu.produced n (List.mem_of_getElem? hn) x hx
    · show t.graph.emplace _ _ _ _ = _
      rw [h.graph, copies, copies, List.filterMap_append, List.filterMap_cons, hn]
      rfl

/-- The loop ends when the work is done. -/
theorem Traversal.Inv.loop (hu : UniqueProducer nodes) {t : Traversal F} (h : t.Inv nodes names) :
    ∃ t', t'.Inv nodes names ∧ t'.queuedNames = [] ∧
      ∀ fuel, t.work nodes ≤ fuel → Traversal.loop nodes fuel t = some t' := by
  generalize hw : t.work nodes = w
  induction w generalizing t with
  | zero =>
    have hq : t.queuedNames = [] := by
      rw [Traversal.work, Worklist.work, Nat.add_eq_zero_iff] at hw
      exact List.eq_nil_of_length_eq_zero hw.1
    refine ⟨t, h, hq, fun fuel _ => ?_⟩
    cases fuel with
    | zero => exact if_pos hq
    | succ fuel => rw [Traversal.loop, hq]; rfl
  | succ w ih =>
    cases hq : t.queuedNames with
    | nil =>
      refine ⟨t, h, hq, fun fuel hfuel => ?_⟩
      cases fuel with
      | zero => exact absurd hfuel (Nat.not_succ_le_zero w)
      | succ fuel => rw [Traversal.loop, hq]; rfl
    | cons name queue =>
      obtain ⟨t₁, hround, hinv, hwork⟩ := h.round hu hq
      obtain ⟨t', hinv', hempty, hloop⟩ := ih hinv (by omega)
      refine ⟨t', hinv', hempty, fun fuel hfuel => ?_⟩
      cases fuel with
      | zero => exact absurd hfuel (Nat.not_succ_le_zero w)
      | succ fuel =>
        rw [Traversal.loop, hq, List.head?_cons]
        show (t.round nodes name).bind _ = _
        rw [hround, Option.bind_some]
        exact hloop fuel (Nat.le_of_succ_le_succ hfuel)

/-- The rounds of `SubGraph`: one for each requested name, and one for each input of each node. -/
def rounds (g : AsyncGraph F) (outputNames : List String) : Nat :=
  outputNames.length + ∑ i ∈ Finset.range g.mAsyncNodes.length, (inputsOf g.mAsyncNodes i).length

/-- `SubGraph` returns copies of the needed nodes, each once. -/
theorem exists_subGraph (g : AsyncGraph F) (hu : UniqueProducer g.mAsyncNodes)
    (hnames : ∀ x ∈ names, x ∈ g.mAsyncNodes.flatMap AsyncNode.mOutputNames) :
    ∃ is : List Nat, is.Nodup ∧ (∀ i, i ∈ is ↔ Needed g.mAsyncNodes names i) ∧
      ∀ fuel, g.rounds names ≤ fuel →
        g.subGraph fuel names = some (ofNodes (copies g.mAsyncNodes is)) := by
  have hinit : Traversal.Inv g.mAsyncNodes names ⟨names, [], ofNodes []⟩ := ⟨.init, hnames, rfl⟩
  obtain ⟨t, h, hq, hloop⟩ := hinit.loop hu
  refine ⟨t.traveledNodes, h.list.nodup, h.list.visited_iff (Makes.unique hu) hq, fun fuel hfuel => ?_⟩
  have hwork : Traversal.work g.mAsyncNodes ⟨names, [], ofNodes []⟩ = g.rounds names := by
    simp [Traversal.work, Worklist.work, Traversal.state, rounds]
  rw [subGraph, hloop fuel (hwork ▸ hfuel), Option.map_some, h.graph]

/-! ## The graph that is returned -/

section Copies

variable {is : List Nat}

theorem getElem?_copies (his : ∀ i ∈ is, i < nodes.length) (a : Nat) :
    (copies nodes is)[a]? = is[a]?.bind fun i => nodes[i]? := by
  induction is generalizing a with
  | nil => rfl
  | cons i is ih =>
    obtain ⟨hi, his⟩ := List.forall_mem_cons.mp his
    rw [copies, List.filterMap_cons, List.getElem?_eq_getElem hi]
    cases a with
    | zero => exact (List.getElem?_eq_getElem hi).symm
    | succ a => exact ih his a

theorem copies_node (his : ∀ i ∈ is, i < nodes.length) {a : Nat} {n : AsyncNode F}
    (hn : (copies nodes is)[a]? = some n) : ∃ i, is[a]? = some i ∧ nodes[i]? = some n := by
  rw [getElem?_copies his] at hn
  exact Option.bind_eq_some_iff.mp hn

theorem Needed.lt {i : Nat} (h : Needed nodes names i) : i < nodes.length := by
  have hmakes : ∃ x, Makes nodes i x := by
    cases h with
    | root _ hm => exact ⟨_, hm⟩
    | need _ _ hm => exact ⟨_, hm⟩
  obtain ⟨x, hm⟩ := hmakes
  obtain ⟨n, hn, -⟩ := hm.node
  exact (List.getElem?_eq_some_iff.mp hn).1

/-- Every input is produced by a copy. -/
theorem copies_produced (hu : UniqueProducer nodes) (hiff : ∀ i, i ∈ is ↔ Needed nodes names i) :
    ∀ n ∈ copies nodes is, ∀ x ∈ n.mInputNames,
      x ∈ (copies nodes is).flatMap AsyncNode.mOutputNames := by
  intro n hn x hx
  obtain ⟨i, hi, hin⟩ := List.mem_filterMap.mp hn
  obtain ⟨k, hk⟩ := exists_makes (hu.produced n (List.mem_of_getElem? hin) x hx)
  have hneed : Needed nodes names k :=
    .need ((hiff i).mp hi) (by rw [inputsOf_eq hin]; exact hx) hk
  obtain ⟨m, hm, hxm⟩ := hk.node
  exact List.mem_flatMap.mpr ⟨m, List.mem_filterMap.mpr ⟨k, (hiff k).mpr hneed, hm⟩, hxm⟩

theorem copies_unique (hu : UniqueProducer nodes) (hnodup : is.Nodup)
    (hiff : ∀ i, i ∈ is ↔ Needed nodes names i) : UniqueProducer (copies nodes is) where
  nodup := by
    rw [List.nodup_flatMap]
    refine ⟨fun n hn => ?_, ?_⟩
    · obtain ⟨i, -, hin⟩ := List.mem_filterMap.mp hn
      exact (List.nodup_flatMap.mp hu.nodup).1 n (List.mem_of_getElem? hin)
    · rw [copies, List.pairwise_filterMap]
      refine hnodup.imp fun {i k} hne n hn m hm x hx hx' => hne ?_
      exact Makes.unique hu (makes_iff.mpr ⟨n, hn, hx⟩) (makes_iff.mpr ⟨m, hm, hx'⟩)
  produced := copies_produced hu hiff

/-- A node reads a node in the copy as its original does. -/
theorem feeds_copies (his : ∀ i ∈ is, i < nodes.length) {a b : Nat}
    (h : Feeds (copies nodes is) a b) : Feeds nodes (is.getD a 0) (is.getD b 0) := by
  obtain ⟨n, m, x, hn, hm, hx, hx'⟩ := h
  obtain ⟨i, hi, hin⟩ := copies_node his hn
  obtain ⟨k, hk, hkm⟩ := copies_node his hm
  rw [List.getD_eq_getElem?_getD, List.getD_eq_getElem?_getD, hi, hk]
  exact ⟨n, m, x, hin, hkm, hx, hx'⟩

theorem copies_acyclic (hac : ∀ k, ¬ Relation.TransGen (Feeds nodes) k k)
    (his : ∀ i ∈ is, i < nodes.length) (a : Nat) :
    ¬ Relation.TransGen (Feeds (copies nodes is)) a a :=
  fun h => hac _ (h.lift (fun a => is.getD a 0) fun _ _ => feeds_copies his)

end Copies

/-! ## Its evaluation -/

/-- The order in which the nodes are evaluated that do not stand for arguments. -/
structure Evaluated (isArgument : AsyncNode F → Bool) (nodes : List (AsyncNode F)) (topo : List Nat) :
    Prop where
  nodup : topo.Nodup
  mem_iff : ∀ k, k ∈ topo ↔ ∃ n, nodes[k]? = some n ∧ isArgument n = false
  sorted : topo.Pairwise fun k n => ¬ Feeds nodes n k

/-- The outputs of the nodes that stand for arguments have the values of the arguments. -/
def argumentEnv {A : Type} (isArgument : AsyncNode F → Bool) (nodes : List (AsyncNode F))
    (arguments : String → Option A) : String → Option A :=
  fun x => if ∃ n ∈ nodes, isArgument n = true ∧ x ∈ n.mOutputNames then arguments x else none

section Evaluation

variable {V E : Type} {isArgument : AsyncNode F → Bool} {is topo topo' : List Nat}

theorem exists_evaluated (hac : ∀ k, ¬ Relation.TransGen (Feeds nodes) k k)
    (isArgument : AsyncNode F → Bool) : ∃ topo, Evaluated isArgument nodes topo := by
  obtain ⟨topo, hperm, hsorted⟩ := exists_sorted hac
    ((List.range nodes.length).filter fun k => nodes[k]?.any fun n => !isArgument n)
  refine ⟨topo, hperm.nodup_iff.mpr (List.nodup_range.filter _), fun k => ?_, hsorted⟩
  rw [hperm.mem_iff, List.mem_filter, List.mem_range]
  constructor
  · rintro ⟨hk, h⟩
    rw [List.getElem?_eq_getElem hk, Option.any_some, Bool.not_eq_true'] at h
    exact ⟨nodes[k], List.getElem?_eq_getElem hk, h⟩
  · rintro ⟨n, hn, h⟩
    refine ⟨(List.getElem?_eq_some_iff.mp hn).1, ?_⟩
    rw [hn, Option.any_some, h]
    rfl

/-- An output of an evaluated node is no argument. -/
theorem not_argument (hu : UniqueProducer nodes) {k : Nat} {n : AsyncNode F} (hn : nodes[k]? = some n)
    (ha : isArgument n = false) {x : String} (hx : x ∈ n.mOutputNames) :
    ¬ ∃ m ∈ nodes, isArgument m = true ∧ x ∈ m.mOutputNames := by
  rintro ⟨m, hm, ham, hxm⟩
  obtain ⟨i, hi⟩ := List.mem_iff_getElem?.mp hm
  have he := Makes.unique hu (makes_iff.mpr ⟨n, hn, hx⟩) (makes_iff.mpr ⟨m, hi, hxm⟩)
  rw [he, hi] at hn
  cases hn
  rw [ha] at ham
  cases ham

theorem Evaluated.ordered (ht : Evaluated isArgument nodes topo) (hu : UniqueProducer nodes)
    (hac : ∀ k, ¬ Relation.TransGen (Feeds nodes) k k) (eval : F → List V → List (Except E V))
    (arguments : String → Option (Except E V)) :
    Dataflow.Ordered (topo.filterMap fun k => nodes[k]?.map (AsyncNode.rule eval))
      (argumentEnv isArgument nodes arguments) := by
  refine ordered_rules hu hac ht.nodup ht.sorted eval fun k hk n hn x hx => ?_
  obtain ⟨n', hn', ha⟩ := (ht.mem_iff k).mp hk
  rw [hn] at hn'
  cases hn'
  exact if_neg (not_argument hu hn ha hx)

/-- Each rule of the copy is a rule of the graph. -/
theorem rule_of_copies (his : ∀ i ∈ is, i < nodes.length) (ht : Evaluated isArgument nodes topo)
    (ht' : Evaluated isArgument (copies nodes is) topo') (eval : F → List V → List (Except E V))
    {m : Dataflow.Rule String (Except E V)}
    (hm : m ∈ topo'.filterMap fun k => (copies nodes is)[k]?.map (AsyncNode.rule eval)) :
    ∃ n i, i ∈ is ∧ nodes[i]? = some n ∧ isArgument n = false ∧ m = n.rule eval ∧
      m ∈ topo.filterMap fun k => nodes[k]?.map (AsyncNode.rule eval) := by
  obtain ⟨a, ha, he⟩ := List.mem_filterMap.mp hm
  obtain ⟨n, hn, rfl⟩ := Option.map_eq_some_iff.mp he
  obtain ⟨n', hn', harg⟩ := (ht'.mem_iff a).mp ha
  rw [hn] at hn'
  cases hn'
  obtain ⟨i, hi, hin⟩ := copies_node his hn
  refine ⟨n, i, List.mem_of_getElem? hi, hin, harg, rfl, List.mem_filterMap.mpr ⟨i, ?_, ?_⟩⟩
  · exact (ht.mem_iff i).mpr ⟨n, hin, harg⟩
  · rw [hin]
    rfl

/-- The copy computes what the graph computes. -/
theorem seqEval_copies (hu : UniqueProducer nodes) (hac : ∀ k, ¬ Relation.TransGen (Feeds nodes) k k)
    (hnodup : is.Nodup) (hiff : ∀ i, i ∈ is ↔ Needed nodes names i)
    (ht : Evaluated isArgument nodes topo) (ht' : Evaluated isArgument (copies nodes is) topo')
    (eval : F → List V → List (Except E V)) (arguments : String → Option (Except E V)) {x : String}
    (hx : x ∈ (copies nodes is).flatMap AsyncNode.mOutputNames) :
    seqEval eval (copies nodes is) topo' (argumentEnv isArgument (copies nodes is) arguments) x =
      seqEval eval nodes topo (argumentEnv isArgument nodes arguments) x := by
  have his : ∀ i ∈ is, i < nodes.length := fun i hi => Needed.lt ((hiff i).mp hi)
  have hu' := copies_unique hu hnodup hiff
  have hordered := ht.ordered hu hac eval arguments
  have hordered' := ht'.ordered hu' (copies_acyclic hac his) eval arguments
  -- what a node of the copy that stands for arguments produces
  have hargument : ∀ n ∈ copies nodes is, isArgument n = true → ∀ y ∈ n.mOutputNames,
      (∀ m ∈ topo.filterMap (fun k => nodes[k]?.map (AsyncNode.rule eval)), y ∉ m.outs) ∧
        argumentEnv isArgument (copies nodes is) arguments y =
          argumentEnv isArgument nodes arguments y := by
    intro n hn harg y hy
    obtain ⟨i, hi, hin⟩ := List.mem_filterMap.mp hn
    have hmem := List.mem_of_getElem? hin
    refine ⟨fun m hm hym => ?_, ?_⟩
    · obtain ⟨k, hk, he⟩ := List.mem_filterMap.mp hm
      obtain ⟨n', hn', rfl⟩ := Option.map_eq_some_iff.mp he
      obtain ⟨n'', hn'', harg'⟩ := (ht.mem_iff k).mp hk
      rw [hn'] at hn''
      cases hn''
      exact not_argument hu hn' harg' hym ⟨n, hmem, harg, hy⟩
    · rw [argumentEnv, argumentEnv, if_pos ⟨n, hn, harg, hy⟩, if_pos ⟨n, hmem, harg, hy⟩]
  obtain ⟨n, hn, hxn⟩ := List.mem_flatMap.mp hx
  cases harg : isArgument n with
  | true =>
    obtain ⟨hno, he⟩ := hargument n hn harg x hxn
    rw [seqEval, seqEval, Dataflow.eval_of_not_mem hno, Dataflow.eval_of_not_mem fun m hm => ?_, he]
    obtain ⟨-, -, -, -, -, -, hm'⟩ := rule_of_copies his ht ht' eval hm
    exact hno m hm'
  | false =>
    refine Dataflow.eval_slice hordered hordered' (fun m hm => ?_) (fun m hm y hy => ?_)
      (n.rule eval) ?_ x hxn
    · obtain ⟨-, -, -, -, -, -, hm'⟩ := rule_of_copies his ht ht' eval hm
      exact hm'
    · obtain ⟨n', i, hi, hin, -, rfl, -⟩ := rule_of_copies his ht ht' eval hm
      have hcopy : n' ∈ copies nodes is := List.mem_filterMap.mpr ⟨i, hi, hin⟩
      obtain ⟨p, hp, hyp⟩ := List.mem_flatMap.mp (hu'.produced n' hcopy y hy)
      cases hpa : isArgument p with
      | true => exact .inr (hargument p hp hpa y hyp)
      | false =>
        obtain ⟨a, ha⟩ := List.mem_iff_getElem?.mp hp
        refine .inl ⟨p.rule eval, List.mem_filterMap.mpr ⟨a, ?_, by rw [ha]; rfl⟩, hyp⟩
        exact (ht'.mem_iff a).mpr ⟨p, ha, hpa⟩
    · obtain ⟨a, ha⟩ := List.mem_iff_getElem?.mp hn
      refine List.mem_filterMap.mpr ⟨a, (ht'.mem_iff a).mpr ⟨n, ha, harg⟩, ?_⟩
      rw [ha]
      rfl

end Evaluation

/-- **`SubGraph` ends, with copies of the nodes that the names need, each once. The inputs of these are
produced among them. If the graph is acyclic then so are they, and with the same arguments they give
every name that they produce the value that it has in the whole graph**, whichever nodes stand for
arguments. -/
theorem subGraph_spec (V E : Type) (g : AsyncGraph F) (hu : UniqueProducer g.mAsyncNodes)
    (outputNames : List String)
    (hnames : ∀ x ∈ outputNames, x ∈ g.mAsyncNodes.flatMap AsyncNode.mOutputNames) :
    ∃ is : List Nat, is.Nodup ∧ (∀ i, i ∈ is ↔ Needed g.mAsyncNodes outputNames i) ∧
      (∀ fuel, g.rounds outputNames ≤ fuel →
        g.subGraph fuel outputNames = some (ofNodes (copies g.mAsyncNodes is))) ∧
      (∀ n ∈ copies g.mAsyncNodes is, ∀ x ∈ n.mInputNames,
        x ∈ (copies g.mAsyncNodes is).flatMap AsyncNode.mOutputNames) ∧
      ((∀ k, ¬ Relation.TransGen (Feeds g.mAsyncNodes) k k) → ∀ isArgument : AsyncNode F → Bool,
        (∃ topo, Evaluated isArgument g.mAsyncNodes topo) ∧
        (∃ topo', Evaluated isArgument (copies g.mAsyncNodes is) topo') ∧
        ∀ topo topo', Evaluated isArgument g.mAsyncNodes topo →
          Evaluated isArgument (copies g.mAsyncNodes is) topo' →
          ∀ (eval : F → List V → List (Except E V)) (arguments : String → Option (Except E V)),
          ∀ x ∈ (copies g.mAsyncNodes is).flatMap AsyncNode.mOutputNames,
            seqEval eval (copies g.mAsyncNodes is) topo'
                (argumentEnv isArgument (copies g.mAsyncNodes is) arguments) x =
              seqEval eval g.mAsyncNodes topo
                (argumentEnv isArgument g.mAsyncNodes arguments) x) := by
  obtain ⟨is, hnodup, hiff, hloop⟩ := exists_subGraph g hu hnames
  refine ⟨is, hnodup, hiff, hloop, copies_produced hu hiff, fun hac isArgument => ?_⟩
  have hac' := copies_acyclic hac fun i hi => Needed.lt ((hiff i).mp hi)
  exact ⟨exists_evaluated hac isArgument, exists_evaluated hac' isArgument,
    fun topo topo' ht ht' eval arguments x hx =>
      seqEval_copies hu hac hnodup hiff ht ht' eval arguments hx⟩

/-- A start node, a node that uses its output, and a node that nothing needs. -/
def sliced : List (AsyncNode Unit) :=
  [⟨[], ["x"], (), "start"⟩, ⟨["x"], ["y"], (), "run"⟩, ⟨["x"], ["z"], (), "run"⟩]

theorem sliced_unique : UniqueProducer sliced := ⟨by simp [sliced], by simp [sliced]⟩

/-- `y` needs the first two nodes. -/
theorem subGraph_spec_sliced : ∃ is : List Nat, is.Nodup ∧
    (∀ i, i ∈ is ↔ Needed sliced ["y"] i) ∧
    (ofNodes sliced).subGraph 10 ["y"] = some (ofNodes (copies sliced is)) := by
  obtain ⟨is, hnodup, hiff, hloop, -⟩ := subGraph_spec Nat String (ofNodes sliced) sliced_unique ["y"]
    (by simp [ofNodes, sliced])
  exact ⟨is, hnodup, hiff, hloop 10 (by decide)⟩

end AsyncGraph

end AsyncLib
