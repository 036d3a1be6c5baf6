import Mathlib.Data.List.GetD
import Mathlib.Data.List.Induction
import AsyncLib.Runtime.Graph

/-!
# What `BuildGraph` computes

The first loop of `BuildGraph` visits every occurrence of a name once, as an input or as an output
of a node position. The `Event`s of a graph list these visits, and `buildMaps` is a fold over them
(`buildMaps_eq`), so each of its maps has one specification lemma by induction on the events.

* `usedCountmap_eq`: the used-by list of a name is the ascending list of its consumers.
* `indexed`: the names get the indices `0, 1, …`, each its own.
* `counters_eq`: with unique producers, the counter of a node is its number of inputs, and 0 if the
  node has no results.
* `occurrences_eq`: with unique producers, a node occurs in the used-by lists once per distinct
  input name.
-/

namespace AsyncLib

namespace AsyncGraph

variable {F : Type}

/-! ## The visits of the first loop -/

/-- A visit of the first loop. -/
inductive Event (F : Type) where
  | input (i : Nat) (name : String)
  | output (i : Nat) (node : AsyncNode F) (name : String)

/-- The name visited. -/
def Event.name : Event F → String
  | .input _ name => name
  | .output _ _ name => name

/-- The name, if it is visited as an input. -/
def Event.input? : Event F → Option String
  | .input _ name => some name
  | .output _ _ _ => none

/-- The name, if it is visited as an output. -/
def Event.output? : Event F → Option String
  | .input _ _ => none
  | .output _ _ name => some name

/-- The effect of a visit on the maps. -/
def BuildMaps.visit (m : BuildMaps F) : Event F → BuildMaps F
  | .input i name => m.input i name
  | .output i node name => m.output i node name

/-- The visits of node `i`. -/
def nodeEvents (p : AsyncNode F × Nat) : List (Event F) :=
  p.1.mInputNames.map (.input p.2) ++ p.1.mOutputNames.map (.output p.2 p.1)

/-- The visits of the first loop. -/
def events (nodes : List (AsyncNode F)) : List (Event F) := nodes.zipIdx.flatMap nodeEvents

theorem buildMaps_eq (nodes : List (AsyncNode F)) :
    buildMaps nodes = (events nodes).foldl BuildMaps.visit .empty := by
  unfold buildMaps events
  rw [List.foldl_flatMap]
  congr 1
  funext m p
  simp only [nodeEvents, List.foldl_append, List.foldl_map]
  rfl

theorem mem_events_input {nodes : List (AsyncNode F)} {i : Nat} {name : String} :
    Event.input i name ∈ events nodes ↔ ∃ n, nodes[i]? = some n ∧ name ∈ n.mInputNames := by
  simp only [events, List.mem_flatMap, nodeEvents, List.mem_append, List.mem_map, Prod.exists,
    List.mem_zipIdx_iff_getElem?]
  constructor
  · rintro ⟨n, j, hn, ⟨x, hx, he⟩ | ⟨x, -, he⟩⟩
    · cases he
      exact ⟨n, hn, hx⟩
    · cases he
  · rintro ⟨n, hn, hx⟩
    exact ⟨n, i, hn, .inl ⟨name, hx, rfl⟩⟩

theorem mem_events_output {nodes : List (AsyncNode F)} {i : Nat} {n : AsyncNode F} {name : String} :
    Event.output i n name ∈ events nodes ↔ nodes[i]? = some n ∧ name ∈ n.mOutputNames := by
  simp only [events, List.mem_flatMap, nodeEvents, List.mem_append, List.mem_map, Prod.exists,
    List.mem_zipIdx_iff_getElem?]
  constructor
  · rintro ⟨m, j, hn, ⟨x, -, he⟩ | ⟨x, hx, he⟩⟩
    · cases he
    · cases he
      exact ⟨hn, hx⟩
  · rintro ⟨hn, hx⟩
    exact ⟨n, i, hn, .inr ⟨name, hx, rfl⟩⟩

/-- The inputs and the outputs visited, in order. -/
theorem events_names (nodes : List (AsyncNode F)) :
    (events nodes).filterMap Event.input? = nodes.flatMap AsyncNode.mInputNames ∧
    (events nodes).filterMap Event.output? = nodes.flatMap AsyncNode.mOutputNames := by
  have key : ∀ l : List (AsyncNode F × Nat),
      (l.flatMap nodeEvents).filterMap Event.input? =
        (l.map Prod.fst).flatMap AsyncNode.mInputNames ∧
      (l.flatMap nodeEvents).filterMap Event.output? =
        (l.map Prod.fst).flatMap AsyncNode.mOutputNames := by
    intro l
    induction l with
    | nil => exact ⟨rfl, rfl⟩
    | cons p l ih =>
      have h1 : ∀ l : List String, List.filterMap (Event.input? ∘ Event.output p.2 p.1) l = [] := by
        intro l; simp [Function.comp_def, Event.input?]
      have h2 : ∀ l : List String,
          List.filterMap ((Event.output? : Event F → _) ∘ Event.input p.2) l = [] := by
        intro l; simp [Function.comp_def, Event.output?]
      have h3 : ∀ l : List String,
          List.filterMap ((Event.input? : Event F → _) ∘ Event.input p.2) l = l := by
        intro l; simp [Function.comp_def, Event.input?]
      have h4 : ∀ l : List String, List.filterMap (Event.output? ∘ Event.output p.2 p.1) l = l := by
        intro l; simp [Function.comp_def, Event.output?]
      simp only [List.flatMap_cons, List.filterMap_append, ih, List.map_cons, nodeEvents,
        List.filterMap_map, h1, h2, h3, h4, List.append_nil, List.nil_append, and_self]
  have := key nodes.zipIdx
  rwa [List.zipIdx_map_fst] at this

/-! ## The maps -/

section Maps

variable (m : BuildMaps F) (es : List (Event F)) (x : String)

@[simp] theorem index_argCountMap : (m.index x).argCountMap = m.argCountMap := by
  unfold BuildMaps.index; split <;> rfl

@[simp] theorem index_resCountMap : (m.index x).resCountMap = m.resCountMap := by
  unfold BuildMaps.index; split <;> rfl

@[simp] theorem index_usedCountmap : (m.index x).usedCountmap = m.usedCountmap := by
  unfold BuildMaps.index; split <;> rfl

@[simp] theorem index_indexAsyncNodeMap : (m.index x).indexAsyncNodeMap = m.indexAsyncNodeMap := by
  unfold BuildMaps.index; split <;> rfl

@[simp] theorem index_indexAsyncNodeIdMap :
    (m.index x).indexAsyncNodeIdMap = m.indexAsyncNodeIdMap := by
  unfold BuildMaps.index; split <;> rfl

theorem foldl_argCountMap : (es.foldl BuildMaps.visit m).argCountMap x =
    m.argCountMap x + (es.filterMap Event.input?).count x := by
  induction es generalizing m with
  | nil => rfl
  | cons e es ih =>
    rw [List.foldl_cons, ih]
    cases e with
    | input i name =>
      simp only [BuildMaps.visit, BuildMaps.input, index_argCountMap, List.filterMap_cons,
        Event.input?, List.count_cons]
      by_cases hx : name = x
      · subst hx; simp; omega
      · rw [Function.update_of_ne (Ne.symm hx)]; simp [hx]
    | output i node name =>
      simp [BuildMaps.visit, BuildMaps.output, Event.input?, List.filterMap_cons]

theorem foldl_resCountMap : (es.foldl BuildMaps.visit m).resCountMap x =
    m.resCountMap x + (es.filterMap Event.output?).count x := by
  induction es generalizing m with
  | nil => rfl
  | cons e es ih =>
    rw [List.foldl_cons, ih]
    cases e with
    | input i name => simp [BuildMaps.visit, BuildMaps.input, Event.output?, List.filterMap_cons]
    | output i node name =>
      simp only [BuildMaps.visit, BuildMaps.output, index_resCountMap, List.filterMap_cons,
        Event.output?, List.count_cons]
      by_cases hx : name = x
      · subst hx; simp; omega
      · rw [Function.update_of_ne (Ne.symm hx)]; simp [hx]

theorem mem_setInsert {y i : Nat} {l : List Nat} : y ∈ setInsert i l ↔ y = i ∨ y ∈ l := by
  unfold setInsert
  split
  · rename_i h
    exact ⟨.inr, fun hy => hy.elim (fun he => he ▸ h) id⟩
  · exact List.mem_orderedInsert _

/-- A `std::set` is strictly ascending. -/
theorem pairwise_setInsert {i : Nat} {l : List Nat} (h : l.Pairwise (· < ·)) :
    (setInsert i l).Pairwise (· < ·) := by
  unfold setInsert
  split
  · exact h
  · rename_i hi
    have hle : (l.orderedInsert (· ≤ ·) i).Pairwise (· ≤ ·) :=
      (h.imp Nat.le_of_lt).orderedInsert i l
    have hne : (l.orderedInsert (· ≤ ·) i).Nodup :=
      (List.perm_orderedInsert _ i l).nodup_iff.mpr (List.nodup_cons.mpr ⟨hi, h.imp Nat.ne_of_lt⟩)
    exact (hle.and hne).imp fun h => Nat.lt_of_le_of_ne h.1 h.2

theorem foldl_usedCountmap (y : Nat) : y ∈ (es.foldl BuildMaps.visit m).usedCountmap x ↔
    y ∈ m.usedCountmap x ∨ Event.input y x ∈ es := by
  induction es generalizing m with
  | nil => simp
  | cons e es ih =>
    rw [List.foldl_cons, ih]
    cases e with
    | input i name =>
      simp only [BuildMaps.visit, BuildMaps.input, index_usedCountmap, List.mem_cons,
        Event.input.injEq]
      by_cases hx : x = name
      · subst hx
        rw [Function.update_self, mem_setInsert]
        tauto
      · rw [Function.update_of_ne hx]
        simp [hx]
    | output i node name => simp [BuildMaps.visit, BuildMaps.output]

theorem foldl_usedCountmap_pairwise (h : ∀ x, (m.usedCountmap x).Pairwise (· < ·)) :
    ((es.foldl BuildMaps.visit m).usedCountmap x).Pairwise (· < ·) := by
  induction es generalizing m with
  | nil => exact h x
  | cons e es ih =>
    refine ih _ fun y => ?_
    cases e with
    | input i name =>
      simp only [BuildMaps.visit, BuildMaps.input, index_usedCountmap]
      by_cases hx : y = name
      · subst hx
        rw [Function.update_self]
        exact pairwise_setInsert (h y)
      · rw [Function.update_of_ne hx]
        exact h y
    | output i node name => simpa [BuildMaps.visit, BuildMaps.output] using h y

/-- The keys of `indexAsyncValueMap` are distinct, carry the indices `0, 1, …`, and `startId` is
the next one. -/
structure BuildMaps.Indexed (m : BuildMaps F) : Prop where
  nodup : (m.indexAsyncValueMap.map Prod.fst).Nodup
  ids : m.indexAsyncValueMap.map Prod.snd = List.range m.startId

theorem BuildMaps.Indexed.index {m : BuildMaps F} (h : m.Indexed) (x : String) :
    (m.index x).Indexed := by
  unfold BuildMaps.index
  split
  · exact h
  · rename_i hx
    refine ⟨?_, ?_⟩
    · rw [List.map_append, List.nodup_append]
      refine ⟨h.nodup, by simp, ?_⟩
      rintro a ha b hb rfl
      simp only [List.map_cons, List.map_nil, List.mem_singleton] at hb
      exact hx (hb ▸ ha)
    · rw [List.map_append, h.ids, List.range_succ]
      rfl

theorem foldl_indexed (h : m.Indexed) : (es.foldl BuildMaps.visit m).Indexed := by
  induction es generalizing m with
  | nil => exact h
  | cons e es ih =>
    refine ih _ ?_
    cases e with
    | input i name =>
      have := BuildMaps.Indexed.index (m := { m with
        argCountMap := Function.update m.argCountMap name (m.argCountMap name + 1) })
        ⟨h.nodup, h.ids⟩ name
      exact ⟨this.nodup, this.ids⟩
    | output i node name =>
      have := BuildMaps.Indexed.index (m := { m with
        resCountMap := Function.update m.resCountMap name (m.resCountMap name + 1) })
        ⟨h.nodup, h.ids⟩ name
      exact ⟨this.nodup, this.ids⟩

theorem mem_index (y : String) : y ∈ (m.index x).indexAsyncValueMap.map Prod.fst ↔
    y ∈ m.indexAsyncValueMap.map Prod.fst ∨ y = x := by
  unfold BuildMaps.index
  split
  · rename_i h
    exact ⟨.inl, fun hy => hy.elim id fun he => he ▸ h⟩
  · rw [List.map_append, List.mem_append]
    simp

theorem foldl_keys : x ∈ (es.foldl BuildMaps.visit m).indexAsyncValueMap.map Prod.fst ↔
    x ∈ m.indexAsyncValueMap.map Prod.fst ∨ x ∈ es.map Event.name := by
  induction es generalizing m with
  | nil => simp
  | cons e es ih =>
    rw [List.foldl_cons, ih, List.map_cons, List.mem_cons, ← or_assoc]
    refine or_congr_left ?_
    cases e with
    | input i name => exact mem_index { m with argCountMap := _ } name x
    | output i node name => exact mem_index { m with resCountMap := _ } name x

/-- A name that is visited once as an output keeps its producer. -/
theorem foldl_producer {i : Nat} {n : AsyncNode F} (hn : (es.filterMap Event.output?).Nodup)
    (hx : Event.output i n x ∈ es) :
    (es.foldl BuildMaps.visit m).indexAsyncNodeIdMap x = i ∧
    (es.foldl BuildMaps.visit m).indexAsyncNodeMap x = some n := by
  induction es using List.reverseRecOn with
  | nil => cases hx
  | append_singleton es e ih =>
    rw [List.filterMap_append, List.nodup_append] at hn
    rw [List.foldl_append, List.foldl_cons, List.foldl_nil]
    rcases List.mem_append.mp hx with hm | hm
    · obtain ⟨h1, h2⟩ := ih hn.1 hm
      cases e with
      | input j name => exact ⟨by simpa [BuildMaps.visit, BuildMaps.input] using h1,
          by simpa [BuildMaps.visit, BuildMaps.input] using h2⟩
      | output j node name =>
        have hne : x ≠ name := hn.2.2 x (List.mem_filterMap.mpr ⟨.output i n x, hm, rfl⟩) name (by
          simp [Event.output?])
        simp only [BuildMaps.visit, BuildMaps.output, Function.update_of_ne hne,
          index_indexAsyncNodeIdMap, index_indexAsyncNodeMap]
        exact ⟨h1, h2⟩
    · rw [List.mem_singleton] at hm
      subst hm
      simp [BuildMaps.visit, BuildMaps.output]

end Maps

/-! ## The derived tables of a graph with unique producers -/

/-- Every name of the graph is the output of exactly one node position. -/
structure UniqueProducer (nodes : List (AsyncNode F)) : Prop where
  nodup : (nodes.flatMap AsyncNode.mOutputNames).Nodup
  produced : ∀ n ∈ nodes, ∀ x ∈ n.mInputNames, x ∈ nodes.flatMap AsyncNode.mOutputNames

/-- The used-by list of a name: its consumers, in ascending order. -/
theorem usedCountmap_eq (nodes : List (AsyncNode F)) (x : String) :
    (buildMaps nodes).usedCountmap x =
      (List.range nodes.length).filter fun i => x ∈ nodes[i]?.elim [] AsyncNode.mInputNames := by
  rw [buildMaps_eq]
  refine List.Pairwise.eq_of_mem_iff (r := (· < ·))
    (foldl_usedCountmap_pairwise _ _ _ fun _ => List.Pairwise.nil)
    (List.pairwise_lt_range.filter _) ?_
  intro i
  rw [foldl_usedCountmap, List.mem_filter, mem_events_input, List.mem_range]
  simp only [BuildMaps.empty, List.not_mem_nil, false_or, decide_eq_true_eq]
  constructor
  · rintro ⟨n, hn, hx⟩
    exact ⟨(List.getElem?_eq_some_iff.mp hn).1, by rw [hn]; exact hx⟩
  · rintro ⟨hi, hx⟩
    rw [List.getElem?_eq_getElem hi] at hx
    exact ⟨nodes[i], List.getElem?_eq_getElem hi, hx⟩

/-- A loop of stores whose values at index `i` agree. -/
theorem foldl_set_getD {α : Type} {names : List α} {idx val : α → Nat} {i v : Nat}
    (hv : ∀ x ∈ names, idx x = i → val x = v) (l : List Nat) (hi : i < l.length) :
    (names.foldl (fun c x => c.set (idx x) (val x)) l).getD i 0 =
      if i ∈ names.map idx then v else l.getD i 0 := by
  induction names generalizing l with
  | nil => simp
  | cons x names ih =>
    have hv' := ih (fun y hy => hv y (List.mem_cons_of_mem _ hy)) (l.set (idx x) (val x))
      (by simpa using hi)
    rw [List.foldl_cons, hv', List.map_cons]
    by_cases hm : i ∈ names.map idx
    · simp [hm]
    · by_cases hx : idx x = i
      · have := hv x (by simp) hx
        subst hx
        simp [hm, this, hi]
      · simp [hm, hx, Ne.symm hx]

theorem length_foldl_set {α : Type} (xs : List α) (idx val : α → Nat) (l : List Nat) :
    (xs.foldl (fun c x => c.set (idx x) (val x)) l).length = l.length := by
  induction xs generalizing l with
  | nil => rfl
  | cons x xs ih => rw [List.foldl_cons, ih, List.length_set]

section Tables

variable {nodes : List (AsyncNode F)} (order : HashOrder)

/-- The graph after `emplace` of the nodes and one `BuildGraph`. -/
def build (order : HashOrder) (nodes : List (AsyncNode F)) : AsyncGraph F :=
  buildGraph order (ofNodes nodes)

/-- With unique producers, the counter of a node with results is its number of inputs; the counter
of a node without results keeps the 0 of `resize`. -/
theorem counters_eq (hu : UniqueProducer nodes) {i : Nat} {n : AsyncNode F}
    (hn : nodes[i]? = some n) :
    (build order nodes).mArgumentsNotReady.getD i 0 =
      if n.mOutputNames = [] then 0 else n.getNumInputs := by
  have hi := (List.getElem?_eq_some_iff.mp hn).1
  have hnd : ((events nodes).filterMap Event.output?).Nodup := by
    rw [(events_names nodes).2]; exact hu.nodup
  have hprod : ∀ j k y, nodes[j]? = some k → y ∈ k.mOutputNames →
      (buildMaps nodes).indexAsyncNodeIdMap y = j ∧
      (buildMaps nodes).indexAsyncNodeMap y = some k := by
    intro j k y hj hy
    rw [buildMaps_eq]
    exact foldl_producer _ _ _ hnd (mem_events_output.mpr ⟨hj, hy⟩)
  show (storeCounters (buildMaps nodes) (nodes.flatMap AsyncNode.mOutputNames)
    (resize nodes.length [])).getD i 0 = _
  unfold storeCounters
  rw [foldl_set_getD (v := n.getNumInputs) _ _ (by simpa [resize] using hi)]
  · have hmem : i ∈ (nodes.flatMap AsyncNode.mOutputNames).map
        (buildMaps nodes).indexAsyncNodeIdMap ↔ n.mOutputNames ≠ [] := by
      constructor
      · intro h
        obtain ⟨y, hy, he⟩ := List.mem_map.mp h
        obtain ⟨k, hk, hyk⟩ := List.mem_flatMap.mp hy
        obtain ⟨j, hj⟩ := List.mem_iff_getElem?.mp hk
        rw [(hprod j k y hj hyk).1] at he
        subst he
        rw [hj] at hn
        cases hn
        exact List.ne_nil_of_mem hyk
      · intro h
        obtain ⟨y, hy⟩ := List.exists_mem_of_ne_nil _ h
        exact List.mem_map.mpr ⟨y, List.mem_flatMap.mpr ⟨n, List.mem_of_getElem? hn, hy⟩,
          (hprod i n y hn hy).1⟩
    simp only [hmem]
    by_cases ho : n.mOutputNames = [] <;> simp [ho, resize, hi]
  · intro y hy he
    obtain ⟨k, hk, hyk⟩ := List.mem_flatMap.mp hy
    obtain ⟨j, hj⟩ := List.mem_iff_getElem?.mp hk
    obtain ⟨h1, h2⟩ := hprod j k y hj hyk
    rw [h1] at he
    subst he
    rw [hj] at hn
    cases hn
    rw [h2]
    rfl

theorem length_counters : (build order nodes).mArgumentsNotReady.length = nodes.length := by
  show (storeCounters (buildMaps nodes) (nodes.flatMap AsyncNode.mOutputNames)
    (resize nodes.length [])).length = _
  rw [storeCounters, length_foldl_set]
  simp [resize]

/-- The counter of node `i` after `Reset`. -/
def counter (g : AsyncGraph F) (i : Nat) : Nat := g.resetCounters.getD i 0

/-- How often node `i` occurs in the used-by lists of all results of all nodes. -/
def occurrences (g : AsyncGraph F) (i : Nat) : Nat :=
  (g.mUsedByKernlTable.flatten.map (List.count i)).sum

theorem counter_eq (hu : UniqueProducer nodes) {i : Nat} {n : AsyncNode F}
    (hn : nodes[i]? = some n) :
    (build order nodes).counter i = if n.mOutputNames = [] then 1 else max 1 n.getNumInputs := by
  have hi := (List.getElem?_eq_some_iff.mp hn).1
  have hc := counters_eq order hu hn
  rw [List.getD_eq_getElem _ _ (by rw [length_counters order]; exact hi)] at hc
  unfold counter resetCounters
  rw [List.getD_eq_getElem _ _ (by rw [List.length_map, length_counters order]; exact hi),
    List.getElem_map, hc]
  split <;> rfl

/-- With unique producers, a node is in the used-by lists once per distinct input name. -/
theorem occurrences_eq (hu : UniqueProducer nodes) {i : Nat} {n : AsyncNode F}
    (hn : nodes[i]? = some n) :
    (build order nodes).occurrences i = n.mInputNames.dedup.length := by
  have hi := (List.getElem?_eq_some_iff.mp hn).1
  have htab : (build order nodes).mUsedByKernlTable.flatten =
      (nodes.flatMap AsyncNode.mOutputNames).map (buildMaps nodes).usedCountmap := by
    show (nodes.map fun n => n.mOutputNames.map (buildMaps nodes).usedCountmap).flatten = _
    rw [List.map_flatMap, List.flatMap_def]
  have hcount : ∀ x, List.count i ((buildMaps nodes).usedCountmap x) =
      if x ∈ n.mInputNames then 1 else 0 := by
    intro x
    rw [usedCountmap_eq]
    by_cases hx : x ∈ n.mInputNames
    · rw [if_pos hx]
      refine List.count_eq_one_of_mem (List.nodup_range.filter _) ?_
      rw [List.mem_filter, hn]
      exact ⟨List.mem_range.mpr hi, decide_eq_true hx⟩
    · rw [if_neg hx]
      exact List.count_eq_zero_of_not_mem (by simp [hn, hx])
  have hperm : ((nodes.flatMap AsyncNode.mOutputNames).filter (· ∈ n.mInputNames)).Perm
      n.mInputNames.dedup := by
    refine (List.perm_ext_iff_of_nodup (hu.nodup.filter _) (List.nodup_dedup _)).mpr fun x => ?_
    rw [List.mem_filter, List.mem_dedup, decide_eq_true_eq]
    exact ⟨fun h => h.2, fun h => ⟨hu.produced n (List.mem_of_getElem? hn) x h, h⟩⟩
  unfold occurrences
  rw [htab, List.map_map, ← hperm.length_eq, ← List.countP_eq_length_filter]
  generalize nodes.flatMap AsyncNode.mOutputNames = l
  induction l with
  | nil => rfl
  | cons x l ih => simp only [List.map_cons, List.sum_cons, ih, Function.comp_apply, hcount,
      List.countP_cons]; by_cases hx : x ∈ n.mInputNames <;> simp [hx]; omega

end Tables

/-- `BuildGraph` and the used-by sets agree on node `n`: a node with results lists no input name
twice, a node without results has a single input name. -/
def CountsRight (n : AsyncNode F) : Prop :=
  if n.mOutputNames = [] then n.mInputNames.dedup.length = 1 else n.mInputNames.Nodup

/-- **The ready counters match the used-by lists exactly when every node with inputs
`CountsRight`.** The counter is taken from the input list, and only while visiting results; the
decrements come from the de-duplicated used-by sets. -/
theorem counter_eq_occurrences_iff (order : HashOrder) (nodes : List (AsyncNode F))
    (hu : UniqueProducer nodes) :
    (∀ i n, nodes[i]? = some n → n.mInputNames ≠ [] →
      (build order nodes).counter i = (build order nodes).occurrences i) ↔
    ∀ n ∈ nodes, n.mInputNames ≠ [] → CountsRight n := by
  have key : ∀ i n, nodes[i]? = some n → n.mInputNames ≠ [] →
      ((build order nodes).counter i = (build order nodes).occurrences i ↔ CountsRight n) := by
    intro i n hn hin
    have hpos : 1 ≤ n.getNumInputs := List.length_pos_iff.mpr hin
    rw [counter_eq order hu hn, occurrences_eq order hu hn, CountsRight]
    split
    · exact eq_comm
    · rw [Nat.max_eq_right hpos]
      constructor
      · intro h
        exact List.dedup_eq_self.mp ((List.dedup_sublist _).eq_of_length h.symm)
      · intro h
        rw [List.dedup_eq_self.mpr h]
        rfl
  constructor
  · intro h n hn hin
    obtain ⟨i, hi⟩ := List.mem_iff_getElem?.mp hn
    exact (key i n hi hin).mp (h i n hi hin)
  · intro h i n hi hin
    exact (key i n hi hin).mpr (h n (List.mem_of_getElem? hi) hin)

/-- A start node, a node that lists its output twice, and a node that uses it once. -/
def twiceUsed : List (AsyncNode Unit) :=
  [⟨[], ["x"], (), "start"⟩, ⟨["x", "x"], ["y"], (), "run"⟩, ⟨["x"], ["z"], (), "run"⟩]

/-- A start node with two outputs and a node that uses both and has no result. -/
def noResult : List (AsyncNode Unit) :=
  [⟨[], ["x", "y"], (), "start"⟩, ⟨["x", "y"], [], (), "run"⟩]

theorem twiceUsed_unique : UniqueProducer twiceUsed := ⟨by simp [twiceUsed], by simp [twiceUsed]⟩

theorem noResult_unique : UniqueProducer noResult := ⟨by simp [noResult], by simp [noResult]⟩

/-- The equivalence at `twiceUsed`: the counters do not all match. -/
theorem counter_eq_occurrences_iff_twiceUsed :
    ¬ ∀ i n, twiceUsed[i]? = some n → n.mInputNames ≠ [] →
      (build .insertion twiceUsed).counter i = (build .insertion twiceUsed).occurrences i := by
  rw [counter_eq_occurrences_iff .insertion twiceUsed twiceUsed_unique]
  simp [twiceUsed, CountsRight]

/-- The node that lists its input twice waits for two decrements and gets one: it never runs. The
node without results waits for one and gets two: it runs before its second input is there. -/
theorem counter_ne_occurrences :
    UniqueProducer twiceUsed ∧ (build .insertion twiceUsed).counter 1 = 2 ∧
      (build .insertion twiceUsed).occurrences 1 = 1 ∧
    UniqueProducer noResult ∧ (build .insertion noResult).counter 1 = 1 ∧
      (build .insertion noResult).occurrences 1 = 2 := by
  refine ⟨twiceUsed_unique, ?_, ?_, noResult_unique, ?_, ?_⟩
  · rw [counter_eq _ twiceUsed_unique rfl]; simp [AsyncNode.getNumInputs]
  · rw [occurrences_eq _ twiceUsed_unique rfl]; simp
  · rw [counter_eq _ noResult_unique rfl]; simp
  · rw [occurrences_eq _ noResult_unique rfl]; simp

end AsyncGraph

end AsyncLib
