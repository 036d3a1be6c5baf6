import Mathlib.Algebra.BigOperators.Group.Finset.Basic
import Mathlib.Data.Finite.Defs
import Mathlib.Order.WellFounded
import AsyncLib.Runtime.GraphSpec

/-!
# What the executor relies on in a built graph

The tables of a built graph whose names have unique producers, in the terms of the executor:
registers instead of names, and for each register its producer and its consumers.

* `Wired g start`: the facts about the tables. Executor proofs use these and no names.
* `wired_build`: `BuildGraph` establishes them.
* `WellFormed nodes`: the graphs that the executor can run to the end; `WellFormed.rank` is a
  topological numbering of the nodes.
-/

namespace AsyncLib

namespace AsyncGraph

variable {F : Type}

/-- The register of the result `j` of kernel `k`. -/
def resultReg (g : AsyncGraph F) (k j : Nat) : Nat := (g.resultsIndex k).getD j 0

/-- `GetNumResults` of kernel `k`. -/
def numResults (g : AsyncGraph F) (k : Nat) : Nat := (g.resultsIndex k).length

/-- The number of kernels. -/
def numKernels (g : AsyncGraph F) : Nat := g.mAsyncNodes.length

/-- The number of registers. -/
def numRegs (g : AsyncGraph F) : Nat := g.mUserCounts.length

/-- How often the kernels read the register `r`. -/
def reads (g : AsyncGraph F) (r : Nat) : Nat :=
  ∑ n ∈ Finset.range g.numKernels, (g.argumentsIdx n).count r

/-- The wiring of a graph: every result has a register of its own, every argument is some result,
the used-by list of a result holds the kernels that read it, and `mUserCount` is the number of
reads. The start kernel reads nothing. -/
structure Wired (g : AsyncGraph F) (start : Nat) : Prop where
  start_eq : g.startNode = some start
  start_args : g.argumentsIdx start = []
  reg_inj : ∀ {k j k' j'}, j < g.numResults k → j' < g.numResults k' →
    g.resultReg k j = g.resultReg k' j' → k = k' ∧ j = j'
  reg_lt : ∀ {k j}, j < g.numResults k → g.resultReg k j < g.numRegs
  produced : ∀ {n r}, r ∈ g.argumentsIdx n → ∃ k j, j < g.numResults k ∧ g.resultReg k j = r
  mem_users : ∀ {k j}, j < g.numResults k →
    ∀ n, n ∈ g.getNextUsedBys k j ↔ g.resultReg k j ∈ g.argumentsIdx n
  users_nodup : ∀ k j, (g.getNextUsedBys k j).Nodup
  userCount_eq : ∀ {r}, r < g.numRegs → g.userCount r = g.reads r
  mem_resultRegs : ∀ r, r ∈ g.resultRegs ↔ r < g.numRegs ∧ g.userCount r = 0
  resultRegs_nodup : g.resultRegs.Nodup

/-! ## Names and registers -/

section Build

variable {nodes : List (AsyncNode F)} {order : HashOrder}

theorem ids_perm : (build order nodes).mNameAndAsyncIdPair.Perm (buildMaps nodes).indexAsyncValueMap :=
  order.perm _

theorem buildMaps_indexed (nodes : List (AsyncNode F)) : (buildMaps nodes).Indexed := by
  rw [buildMaps_eq]
  exact foldl_indexed _ _ ⟨List.nodup_nil, rfl⟩

theorem keys_nodup : ((build order nodes).mNameAndAsyncIdPair.map Prod.fst).Nodup :=
  (ids_perm.map Prod.fst).nodup_iff.mpr (buildMaps_indexed nodes).nodup

theorem ids_nodup : ((build order nodes).mNameAndAsyncIdPair.map Prod.snd).Nodup := by
  refine (ids_perm.map Prod.snd).nodup_iff.mpr ?_
  rw [(buildMaps_indexed nodes).ids]
  exact List.nodup_range

/-- The names of the graph are the keys of the index map. -/
theorem mem_keys {x : String} : x ∈ (build order nodes).mNameAndAsyncIdPair.map Prod.fst ↔
    (∃ n ∈ nodes, x ∈ n.mInputNames) ∨ ∃ n ∈ nodes, x ∈ n.mOutputNames := by
  rw [(ids_perm.map Prod.fst).mem_iff, buildMaps_eq, foldl_keys]
  simp only [BuildMaps.empty, List.map_nil, List.not_mem_nil, false_or, List.mem_map]
  constructor
  · rintro ⟨e, he, rfl⟩
    cases e with
    | input i name =>
      obtain ⟨n, hn, hx⟩ := mem_events_input.mp he
      exact .inl ⟨n, List.mem_of_getElem? hn, hx⟩
    | output i n name =>
      obtain ⟨hn, hx⟩ := mem_events_output.mp he
      exact .inr ⟨n, List.mem_of_getElem? hn, hx⟩
  · rintro (⟨n, hn, hx⟩ | ⟨n, hn, hx⟩)
    · obtain ⟨i, hi⟩ := List.mem_iff_getElem?.mp hn
      exact ⟨.input i x, mem_events_input.mpr ⟨n, hi, hx⟩, rfl⟩
    · obtain ⟨i, hi⟩ := List.mem_iff_getElem?.mp hn
      exact ⟨.output i n x, mem_events_output.mpr ⟨hi, hx⟩, rfl⟩

theorem lookup_of_mem {l : List (String × Nat)} (hl : (l.map Prod.fst).Nodup) {x : String} {r : Nat}
    (h : (x, r) ∈ l) : l.lookup x = some r := by
  induction l with
  | nil => cases h
  | cons p l ih =>
    obtain ⟨y, q⟩ := p
    rw [List.map_cons, List.nodup_cons] at hl
    rcases List.mem_cons.mp h with he | hm
    · cases he
      exact List.lookup_cons_self
    · have hne : x ≠ y := fun he => hl.1 (he ▸ List.mem_map.mpr ⟨(x, r), hm, rfl⟩)
      rw [List.lookup_cons, beq_eq_false_iff_ne.mpr hne]
      exact ih hl.2 hm

/-- A name and its index. -/
theorem mem_ids {x : String} (hx : x ∈ (build order nodes).mNameAndAsyncIdPair.map Prod.fst) :
    (x, (build order nodes).asyncId x) ∈ (build order nodes).mNameAndAsyncIdPair := by
  obtain ⟨⟨y, r⟩, hm, rfl⟩ := List.mem_map.mp hx
  rw [asyncId, lookup_of_mem keys_nodup hm]
  exact hm

theorem asyncId_of_mem {x : String} {r : Nat}
    (h : (x, r) ∈ (build order nodes).mNameAndAsyncIdPair) : (build order nodes).asyncId x = r := by
  rw [asyncId, lookup_of_mem keys_nodup h]
  rfl

theorem asyncId_inj {x y : String} (hx : x ∈ (build order nodes).mNameAndAsyncIdPair.map Prod.fst)
    (hy : y ∈ (build order nodes).mNameAndAsyncIdPair.map Prod.fst)
    (he : (build order nodes).asyncId x = (build order nodes).asyncId y) : x = y := by
  have h1 := mem_ids hx
  have h2 := mem_ids hy
  rw [he] at h1
  exact congrArg Prod.fst (List.inj_on_of_nodup_map ids_nodup h1 h2 rfl)

theorem numRegs_build : (build order nodes).numRegs = (build order nodes).mNameAndAsyncIdPair.length := by
  show (storeUserCounts _ _ _).length = _
  rw [storeUserCounts, length_foldl_set]
  show (resize _ []).length = _
  simp only [resize, List.take_nil, List.length_nil, Nat.sub_zero, List.nil_append,
    List.length_replicate]
  rfl

theorem id_lt {x : String} {r : Nat} (h : (x, r) ∈ (build order nodes).mNameAndAsyncIdPair) :
    r < (build order nodes).numRegs := by
  have hr : r ∈ (buildMaps nodes).indexAsyncValueMap.map Prod.snd :=
    List.mem_map.mpr ⟨(x, r), ids_perm.mem_iff.mp h, rfl⟩
  rw [(buildMaps_indexed nodes).ids, List.mem_range] at hr
  have hlen : (buildMaps nodes).startId = (build order nodes).mNameAndAsyncIdPair.length := by
    rw [ids_perm.length_eq, ← List.length_map (f := Prod.snd), (buildMaps_indexed nodes).ids,
      List.length_range]
  rw [numRegs_build, ← hlen]
  exact hr

/-- Every register belongs to a name. -/
theorem exists_id {r : Nat} (h : r < (build order nodes).numRegs) :
    ∃ x, (x, r) ∈ (build order nodes).mNameAndAsyncIdPair := by
  have hr : r ∈ (buildMaps nodes).indexAsyncValueMap.map Prod.snd := by
    rw [(buildMaps_indexed nodes).ids, List.mem_range]
    rw [numRegs_build, ids_perm.length_eq, ← List.length_map (f := Prod.snd),
      (buildMaps_indexed nodes).ids, List.length_range] at h
    exact h
  obtain ⟨⟨x, q⟩, hm, rfl⟩ := List.mem_map.mp hr
  exact ⟨x, ids_perm.mem_iff.mpr hm⟩

/-- `mUserCount` of a name: how often it is an input or an output, less one. -/
theorem userCount_id {x : String} (hx : x ∈ (build order nodes).mNameAndAsyncIdPair.map Prod.fst) :
    (build order nodes).userCount ((build order nodes).asyncId x) =
      (nodes.flatMap AsyncNode.mInputNames).count x +
        (nodes.flatMap AsyncNode.mOutputNames).count x - 1 := by
  have hm := mem_ids hx
  have hlt := id_lt hm
  rw [numRegs_build] at hlt
  show (storeUserCounts (buildMaps nodes) (build order nodes).mNameAndAsyncIdPair
    (resize (build order nodes).mNameAndAsyncIdPair.length [])).getD _ 0 = _
  unfold storeUserCounts
  rw [foldl_set_getD (v := (buildMaps nodes).argCountMap x + (buildMaps nodes).resCountMap x - 1)]
  · rw [if_pos (List.mem_map.mpr ⟨_, hm, rfl⟩), buildMaps_eq, foldl_argCountMap,
      foldl_resCountMap, (events_names nodes).1, (events_names nodes).2]
    simp [BuildMaps.empty]
  · intro p hp he
    have := List.inj_on_of_nodup_map ids_nodup hp hm he
    rw [this]
  · simpa [resize] using hlt

/-! ## Results, arguments and users -/

/-- The result `j` of kernel `k` and its name. -/
theorem result_name {k j : Nat} (hj : j < (build order nodes).numResults k) :
    ∃ n x, nodes[k]? = some n ∧ n.mOutputNames[j]? = some x ∧
      (build order nodes).resultReg k j = (build order nodes).asyncId x ∧
      (build order nodes).getNextUsedBys k j = (buildMaps nodes).usedCountmap x := by
  rw [numResults, resultsIndex, List.length_map] at hj
  change j < (nodes[k]?.elim [] AsyncNode.mOutputNames).length at hj
  cases hn : nodes[k]? with
  | none => rw [hn] at hj; exact absurd hj (Nat.not_lt_zero j)
  | some n =>
    rw [hn] at hj
    have hx : n.mOutputNames[j]? = some n.mOutputNames[j] := List.getElem?_eq_getElem hj
    refine ⟨n, n.mOutputNames[j], rfl, hx, ?_, ?_⟩
    · show ((nodes[k]?.elim [] AsyncNode.mOutputNames).map _).getD j 0 = _
      rw [hn, List.getD_eq_getElem?_getD, List.getElem?_map, Option.elim_some, hx]
      rfl
    · show ((nodes.map fun n => n.mOutputNames.map (buildMaps nodes).usedCountmap).getD k []).getD
        j [] = _
      rw [List.getD_eq_getElem?_getD, List.getD_eq_getElem?_getD, List.getElem?_map, hn,
        Option.map_some, Option.getD_some, List.getElem?_map, hx]
      rfl

theorem mem_argumentsIdx {n r : Nat} : r ∈ (build order nodes).argumentsIdx n ↔
    ∃ m x, nodes[n]? = some m ∧ x ∈ m.mInputNames ∧ (build order nodes).asyncId x = r := by
  show r ∈ (nodes[n]?.elim [] AsyncNode.mInputNames).map _ ↔ _
  rw [List.mem_map]
  cases hn : nodes[n]? with
  | none => simp
  | some m => simp

theorem output_mem_keys {n : AsyncNode F} {x : String} (hn : n ∈ nodes) (hx : x ∈ n.mOutputNames) :
    x ∈ (build order nodes).mNameAndAsyncIdPair.map Prod.fst := mem_keys.mpr (.inr ⟨n, hn, hx⟩)

theorem input_mem_keys {n : AsyncNode F} {x : String} (hn : n ∈ nodes) (hx : x ∈ n.mInputNames) :
    x ∈ (build order nodes).mNameAndAsyncIdPair.map Prod.fst := mem_keys.mpr (.inl ⟨n, hn, hx⟩)

/-- A name is produced at one position only. -/
theorem UniqueProducer.position (hu : UniqueProducer nodes) {k k' j j' : Nat} {n n' : AsyncNode F}
    {x : String} (hk : nodes[k]? = some n) (hk' : nodes[k']? = some n')
    (hj : n.mOutputNames[j]? = some x) (hj' : n'.mOutputNames[j']? = some x) :
    k = k' ∧ j = j' := by
  obtain ⟨hnd, hpw⟩ := List.nodup_flatMap.mp hu.nodup
  have hx := List.mem_of_getElem? hj
  have hx' := List.mem_of_getElem? hj'
  obtain ⟨hlt, rfl⟩ := List.getElem?_eq_some_iff.mp hk
  obtain ⟨hlt', rfl⟩ := List.getElem?_eq_some_iff.mp hk'
  have hkk : k = k' := by
    rcases Nat.lt_trichotomy k k' with h | h | h
    · exact absurd hx' (List.pairwise_iff_getElem.mp hpw k k' hlt hlt' h hx)
    · exact h
    · exact absurd hx (List.pairwise_iff_getElem.mp hpw k' k hlt' hlt h hx')
  subst hkk
  refine ⟨rfl, ?_⟩
  have hn := hnd _ (List.getElem_mem hlt)
  exact (List.getElem?_inj (List.getElem?_eq_some_iff.mp hj).1 hn).mp (hj.trans hj'.symm)

/-- A sum over the positions of a list. -/
theorem sum_range_getElem? {α : Type} (l : List α) (f : Option α → Nat) :
    ∑ n ∈ Finset.range l.length, f l[n]? = (l.map fun x => f (some x)).sum := by
  induction l with
  | nil => rfl
  | cons x l ih =>
    rw [List.length_cons, Finset.sum_range_succ', List.map_cons, List.sum_cons, Nat.add_comm]
    simp only [List.getElem?_cons_zero, List.getElem?_cons_succ, ih]

theorem reads_id {x : String} (hx : x ∈ (build order nodes).mNameAndAsyncIdPair.map Prod.fst) :
    (build order nodes).reads ((build order nodes).asyncId x) =
      (nodes.flatMap AsyncNode.mInputNames).count x := by
  have hcount : ∀ n ∈ nodes, (n.mInputNames.map (build order nodes).asyncId).count
      ((build order nodes).asyncId x) = n.mInputNames.count x := by
    intro n hn
    rw [List.count_eq_countP, List.count_eq_countP, List.countP_map]
    refine List.countP_congr fun y hy => ?_
    simp only [Function.comp_apply, beq_iff_eq]
    exact ⟨asyncId_inj (input_mem_keys hn hy) hx, fun h => h ▸ rfl⟩
  rw [List.count_flatMap, reads]
  show ∑ n ∈ Finset.range nodes.length, ((nodes[n]?.elim [] AsyncNode.mInputNames).map _).count _ = _
  rw [sum_range_getElem? nodes fun o => ((o.elim [] AsyncNode.mInputNames).map _).count _]
  exact congrArg List.sum (List.map_congr_left fun n hn => hcount n hn)

/-- `BuildGraph` wires a graph with unique producers. -/
theorem wired_build (hu : UniqueProducer nodes) {start : Nat}
    (hs : (build order nodes).startNode = some start) : Wired (build order nodes) start where
  start_eq := hs
  start_args := by
    change nodes.findIdx? _ = some start at hs
    obtain ⟨hlt, hp⟩ := List.findIdx?_eq_some_iff_getElem.mp hs
    show (nodes[start]?.elim [] AsyncNode.mInputNames).map _ = []
    rw [List.getElem?_eq_getElem hlt, Option.elim_some, List.map_eq_nil_iff]
    simpa [AsyncNode.getNumInputs] using hp.1
  reg_inj := by
    intro k j k' j' hj hj' he
    obtain ⟨n, x, hn, hx, hr, -⟩ := result_name hj
    obtain ⟨n', x', hn', hx', hr', -⟩ := result_name hj'
    rw [hr, hr'] at he
    have := asyncId_inj (output_mem_keys (List.mem_of_getElem? hn) (List.mem_of_getElem? hx))
      (output_mem_keys (List.mem_of_getElem? hn') (List.mem_of_getElem? hx')) he
    exact hu.position hn hn' hx (this ▸ hx')
  reg_lt := by
    intro k j hj
    obtain ⟨n, x, hn, hx, hr, -⟩ := result_name hj
    rw [hr]
    exact id_lt (mem_ids (output_mem_keys (List.mem_of_getElem? hn) (List.mem_of_getElem? hx)))
  produced := by
    intro n r hr
    obtain ⟨m, x, hm, hx, rfl⟩ := mem_argumentsIdx.mp hr
    obtain ⟨p, hp, hxp⟩ := List.mem_flatMap.mp (hu.produced m (List.mem_of_getElem? hm) x hx)
    obtain ⟨k, hk⟩ := List.mem_iff_getElem?.mp hp
    obtain ⟨j, hj⟩ := List.mem_iff_getElem?.mp hxp
    have hlt : j < (build order nodes).numResults k := by
      rw [numResults, resultsIndex, List.length_map]
      show j < (nodes[k]?.elim [] AsyncNode.mOutputNames).length
      rw [hk]
      exact (List.getElem?_eq_some_iff.mp hj).1
    obtain ⟨p', x', hk', hj', hr', -⟩ := result_name hlt
    rw [hk] at hk'
    cases hk'
    rw [hj] at hj'
    cases hj'
    exact ⟨k, j, hlt, hr'⟩
  mem_users := by
    intro k j hj n
    obtain ⟨p, x, hp, hx, hr, hus⟩ := result_name hj
    rw [hus, hr, usedCountmap_eq, List.mem_filter, List.mem_range, mem_argumentsIdx,
      decide_eq_true_eq]
    have hxk : x ∈ (build order nodes).mNameAndAsyncIdPair.map Prod.fst :=
      output_mem_keys (List.mem_of_getElem? hp) (List.mem_of_getElem? hx)
    constructor
    · rintro ⟨hlt, hin⟩
      rw [List.getElem?_eq_getElem hlt] at hin
      exact ⟨nodes[n], x, List.getElem?_eq_getElem hlt, hin, rfl⟩
    · rintro ⟨m, y, hm, hy, he⟩
      have := asyncId_inj (input_mem_keys (List.mem_of_getElem? hm) hy) hxk he
      subst this
      exact ⟨(List.getElem?_eq_some_iff.mp hm).1, by rw [hm]; exact hy⟩
  users_nodup := by
    intro k j
    show (((nodes.map fun n => n.mOutputNames.map (buildMaps nodes).usedCountmap).getD k []).getD
      j []).Nodup
    rw [List.getD_eq_getElem?_getD, List.getD_eq_getElem?_getD, List.getElem?_map]
    cases nodes[k]? with
    | none => exact List.nodup_nil
    | some n =>
      rw [Option.map_some, Option.getD_some, List.getElem?_map]
      cases n.mOutputNames[j]? with
      | none => exact List.nodup_nil
      | some x =>
        rw [Option.map_some, Option.getD_some, usedCountmap_eq]
        exact List.nodup_range.filter _
  userCount_eq := by
    intro r hr
    obtain ⟨x, hx⟩ := exists_id hr
    have hk : x ∈ (build order nodes).mNameAndAsyncIdPair.map Prod.fst :=
      List.mem_map.mpr ⟨(x, r), hx, rfl⟩
    have hmem : x ∈ nodes.flatMap AsyncNode.mOutputNames := by
      rcases mem_keys.mp hk with ⟨n, hn, hin⟩ | ⟨n, hn, hout⟩
      · exact hu.produced n hn x hin
      · exact List.mem_flatMap.mpr ⟨n, hn, hout⟩
    rw [← asyncId_of_mem hx, userCount_id hk, reads_id hk, List.count_eq_one_of_mem hu.nodup hmem,
      Nat.add_sub_cancel]
  mem_resultRegs := by
    intro r
    rw [resultRegs, List.mem_map]
    constructor
    · rintro ⟨⟨x, q⟩, hm, rfl⟩
      obtain ⟨h1, h2⟩ := List.mem_filter.mp hm
      exact ⟨id_lt h1, by simpa using h2⟩
    · rintro ⟨hlt, h0⟩
      obtain ⟨x, hx⟩ := exists_id hlt
      exact ⟨(x, r), List.mem_filter.mpr ⟨hx, by simpa using h0⟩, rfl⟩
  resultRegs_nodup := ids_nodup.sublist (List.filter_sublist.map Prod.snd)

end Build

/-! ## Well-formed graphs -/

/-- Node `k` produces an input of node `n`. -/
def Feeds (nodes : List (AsyncNode F)) (k n : Nat) : Prop :=
  ∃ a b x, nodes[k]? = some a ∧ nodes[n]? = some b ∧ x ∈ a.mOutputNames ∧ x ∈ b.mInputNames

/-- A graph that the executor can run to the end: unique producers, no cycle, one start node, no
repeated input, and at least one output for each node. -/
structure WellFormed (nodes : List (AsyncNode F)) : Prop where
  unique : UniqueProducer nodes
  acyclic : ∀ k, ¬ Relation.TransGen (Feeds nodes) k k
  oneStart : ∃! k : Nat, ∃ n : AsyncNode F, nodes[k]? = some n ∧ n.mInputNames = []
  inputs_nodup : ∀ n ∈ nodes, n.mInputNames.Nodup
  has_output : ∀ n ∈ nodes, n.mOutputNames ≠ []

/-- The wiring of a well-formed graph: the ready counter of a kernel is its number of arguments,
and the kernels can be numbered such that each reads results of earlier ones only. -/
structure Runnable (g : AsyncGraph F) (start : Nat) (rank : Nat → Nat) : Prop
    extends Wired g start where
  args_nodup : ∀ n, (g.argumentsIdx n).Nodup
  counter_eq : ∀ n, n < g.numKernels → n ≠ start → g.counter n = (g.argumentsIdx n).length
  args_ne_nil : ∀ n, n < g.numKernels → n ≠ start → g.argumentsIdx n ≠ []
  rank_lt : ∀ {k j n}, j < g.numResults k → g.resultReg k j ∈ g.argumentsIdx n → rank k < rank n

section WellFormed

variable {nodes : List (AsyncNode F)} {order : HashOrder}

/-- The number of nodes before `k`: a topological numbering. -/
noncomputable def rank (nodes : List (AsyncNode F)) (k : Nat) : Nat :=
  open Classical in
  ((Finset.range nodes.length).filter fun m => Relation.TransGen (Feeds nodes) m k).card

theorem rank_lt (hac : ∀ k, ¬ Relation.TransGen (Feeds nodes) k k) {k n : Nat}
    (h : Feeds nodes k n) : rank nodes k < rank nodes n := by
  classical
  have hk : k < nodes.length := by
    obtain ⟨a, -, -, ha, -⟩ := h
    exact (List.getElem?_eq_some_iff.mp ha).1
  unfold rank
  refine Finset.card_lt_card ⟨fun m hm => ?_, fun hsub => ?_⟩
  · rw [Finset.mem_filter] at hm ⊢
    exact ⟨hm.1, hm.2.tail h⟩
  · have := hsub (Finset.mem_filter.mpr ⟨Finset.mem_range.mpr hk, .single h⟩)
    exact hac k (Finset.mem_filter.mp this).2

theorem WellFormed.rank_lt (hw : WellFormed nodes) {k n : Nat} (h : Feeds nodes k n) :
    rank nodes k < rank nodes n := AsyncGraph.rank_lt hw.acyclic h

/-- The node without inputs is the start node. -/
theorem WellFormed.start_iff (hw : WellFormed nodes) (order : HashOrder) : ∃ start,
    (build order nodes).startNode = some start ∧
    ∀ k n, nodes[k]? = some n → (n.mInputNames = [] ↔ k = start) := by
  obtain ⟨start, ⟨m, hm, hmi⟩, huniq⟩ := hw.oneStart
  refine ⟨start, ?_, fun k n hn => ⟨fun hi => huniq k ⟨n, hn, hi⟩, fun he => ?_⟩⟩
  · show nodes.findIdx? _ = some start
    obtain ⟨hlt, he⟩ := List.getElem?_eq_some_iff.mp hm
    refine List.findIdx?_eq_some_iff_getElem.mpr ⟨hlt, ?_, fun j hj => ?_⟩
    · rw [he]
      simp [AsyncNode.getNumInputs, hmi]
    · have hjl := Nat.lt_trans hj hlt
      intro hc
      have := huniq j ⟨nodes[j], List.getElem?_eq_getElem hjl,
        by simpa [AsyncNode.getNumInputs] using hc⟩
      omega
  · subst he
    rw [hm] at hn
    cases hn
    exact hmi

theorem WellFormed.runnable (hw : WellFormed nodes) {start : Nat}
    (hs : (build order nodes).startNode = some start) :
    Runnable (build order nodes) start (rank nodes) where
  toWired := wired_build hw.unique hs
  args_nodup := by
    intro n
    show ((nodes[n]?.elim [] AsyncNode.mInputNames).map _).Nodup
    cases hn : nodes[n]? with
    | none => exact List.nodup_nil
    | some m =>
      have hm := List.mem_of_getElem? hn
      exact (List.nodup_map_iff_inj_on (hw.inputs_nodup m hm)).mpr fun x hx y hy he =>
        asyncId_inj (input_mem_keys hm hx) (input_mem_keys hm hy) he
  counter_eq := by
    intro n hn hne
    have hn' : nodes[n]? = some nodes[n] := List.getElem?_eq_getElem hn
    have hm := List.mem_of_getElem? hn'
    obtain ⟨start', hs', hiff⟩ := hw.start_iff order
    rw [hs] at hs'
    cases hs'
    have hin : nodes[n].mInputNames ≠ [] := fun h => hne ((hiff n _ hn').mp h)
    rw [AsyncGraph.counter_eq order hw.unique hn', if_neg (hw.has_output _ hm), argumentsIdx,
      List.length_map]
    show max 1 _ = (nodes[n]?.elim [] AsyncNode.mInputNames).length
    rw [hn']
    exact Nat.max_eq_right (List.length_pos_iff.mpr hin)
  args_ne_nil := by
    intro n hn hne h
    have hn' : nodes[n]? = some nodes[n] := List.getElem?_eq_getElem hn
    obtain ⟨start', hs', hiff⟩ := hw.start_iff order
    rw [hs] at hs'
    cases hs'
    change (nodes[n]?.elim [] AsyncNode.mInputNames).map _ = [] at h
    rw [hn', List.map_eq_nil_iff] at h
    exact hne ((hiff n _ hn').mp h)
  rank_lt := by
    intro k j n hj hr
    obtain ⟨p, x, hp, hx, hreg, -⟩ := result_name hj
    obtain ⟨m, y, hm, hy, he⟩ := mem_argumentsIdx.mp hr
    rw [hreg] at he
    have := asyncId_inj (input_mem_keys (List.mem_of_getElem? hm) hy)
      (output_mem_keys (List.mem_of_getElem? hp) (List.mem_of_getElem? hx)) he
    subst this
    exact hw.rank_lt ⟨p, m, y, hp, hm, List.mem_of_getElem? hx, hy⟩

theorem WellFormed.numResults_pos (hw : WellFormed nodes) {k : Nat} (hk : k < nodes.length) :
    0 < (build order nodes).numResults k := by
  rw [numResults, resultsIndex, List.length_map]
  show 0 < (nodes[k]?.elim [] AsyncNode.mOutputNames).length
  rw [List.getElem?_eq_getElem hk]
  exact List.length_pos_iff.mpr (hw.has_output _ (List.getElem_mem hk))

/-- A list of nodes in topological order is well formed, if only its first node has no inputs. -/
theorem WellFormed.of_sorted {first : AsyncNode F} {nodes : List (AsyncNode F)}
    (hu : UniqueProducer (first :: nodes)) (h0 : first.mInputNames = [])
    (h1 : ∀ n ∈ nodes, n.mInputNames ≠ [])
    (hs : ∀ k n : Fin (first :: nodes).length, (∃ x ∈ (first :: nodes)[k].mOutputNames,
      x ∈ (first :: nodes)[n].mInputNames) → k < n)
    (hi : ∀ n ∈ first :: nodes, n.mInputNames.Nodup)
    (ho : ∀ n ∈ first :: nodes, n.mOutputNames ≠ []) : WellFormed (first :: nodes) where
  unique := hu
  acyclic := by
    have hlt : ∀ k n, Relation.TransGen (Feeds (first :: nodes)) k n → k < n := by
      intro k n h
      have hfeeds : ∀ {k n}, Feeds (first :: nodes) k n → k < n := by
        rintro k n ⟨a, b, x, ha, hb, hxa, hxb⟩
        obtain ⟨hk, rfl⟩ := List.getElem?_eq_some_iff.mp ha
        obtain ⟨hn, rfl⟩ := List.getElem?_eq_some_iff.mp hb
        exact hs ⟨k, hk⟩ ⟨n, hn⟩ ⟨x, hxa, hxb⟩
      induction h with
      | single h => exact hfeeds h
      | tail _ h ih => exact Nat.lt_trans ih (hfeeds h)
    exact fun k h => Nat.lt_irrefl k (hlt k k h)
  oneStart := by
    refine ⟨0, ⟨first, rfl, h0⟩, ?_⟩
    rintro k ⟨n, hn, hin⟩
    cases k with
    | zero => rfl
    | succ k => exact absurd hin (h1 n (List.mem_of_getElem? hn))
  inputs_nodup := hi
  has_output := ho

end WellFormed

end AsyncGraph

end AsyncLib
