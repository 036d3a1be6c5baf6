import AsyncLib.Runtime.Wiring

/-!
# Building a graph again

`emplace`, `BuildGraph` and `Reset` in any order. `BuildGraph` refreshes its tables in different
ways: the indices and the used-by lists are replaced, the user counts are all overwritten, the ready
counters are overwritten only where a node is the last producer of some name, and `mOutputNames` is
appended to. Only `Reset` clears them.

* `Episode`: the nodes emplaced since the last `Reset`, and the nodes that each `BuildGraph` since
  then has found.
* `Tables`: what a history leaves in `mOutputNames` and in the ready counters.
* `buildGraph_same_iff`: the tables are those of a fresh graph if and only if the earlier builds of
  the episode left nothing behind (`Episode.Clean`).
-/

namespace AsyncLib

namespace AsyncGraph

variable {F : Type}

/-! ## The last producer of a name -/

/-- Node `i` is the last that has `x` among its outputs. -/
def LastProducer (nodes : List (AsyncNode F)) (i : Nat) (x : String) : Prop :=
  (∃ n, nodes[i]? = some n ∧ x ∈ n.mOutputNames) ∧
    ∀ j n, i < j → nodes[j]? = some n → x ∉ n.mOutputNames

/-- Node `i` is the last producer of some name. -/
def Produces (nodes : List (AsyncNode F)) (i : Nat) : Prop := ∃ x, LastProducer nodes i x

/-- The number of inputs of node `i`. -/
def numInputs (nodes : List (AsyncNode F)) (i : Nat) : Nat :=
  nodes[i]?.elim 0 AsyncNode.getNumInputs

theorem LastProducer.unique {nodes : List (AsyncNode F)} {i j : Nat} {x : String}
    (hi : LastProducer nodes i x) (hj : LastProducer nodes j x) : i = j := by
  obtain ⟨⟨n, hn, hx⟩, hlast⟩ := hi
  obtain ⟨⟨m, hm, hy⟩, hlast'⟩ := hj
  rcases Nat.lt_trichotomy i j with h | h | h
  · exact absurd hy (hlast j m h hm)
  · exact h
  · exact absurd hx (hlast' i n h hn)

theorem buildMaps_concat (nodes : List (AsyncNode F)) (n : AsyncNode F) :
    buildMaps (nodes ++ [n]) = (buildMaps nodes).node n nodes.length := by
  simp [buildMaps, List.zipIdx_append]

theorem foldl_input_producer (i : Nat) (names : List String) (m : BuildMaps F) :
    (names.foldl (BuildMaps.input i) m).indexAsyncNodeIdMap = m.indexAsyncNodeIdMap ∧
    (names.foldl (BuildMaps.input i) m).indexAsyncNodeMap = m.indexAsyncNodeMap := by
  induction names generalizing m with
  | nil => exact ⟨rfl, rfl⟩
  | cons x names ih =>
    obtain ⟨h1, h2⟩ := ih (m.input i x)
    rw [List.foldl_cons, h1, h2]
    simp [BuildMaps.input]

theorem foldl_output_producer (i : Nat) (n : AsyncNode F) (names : List String) (m : BuildMaps F)
    (x : String) :
    (names.foldl (BuildMaps.output i n) m).indexAsyncNodeIdMap x =
      (if x ∈ names then i else m.indexAsyncNodeIdMap x) ∧
    (names.foldl (BuildMaps.output i n) m).indexAsyncNodeMap x =
      (if x ∈ names then some n else m.indexAsyncNodeMap x) := by
  induction names generalizing m with
  | nil => simp
  | cons y names ih =>
    obtain ⟨h1, h2⟩ := ih (m.output i n y)
    rw [List.foldl_cons, h1, h2]
    by_cases hx : x ∈ names
    · simp [hx]
    · by_cases hy : x = y
      · subst hy
        simp [hx, BuildMaps.output]
      · simp [hx, hy, BuildMaps.output]

/-- `indexAsyncNodeIdMap` and `indexAsyncNodeMap` know the last producer. -/
theorem exists_lastProducer (nodes : List (AsyncNode F)) {x : String}
    (hx : x ∈ nodes.flatMap AsyncNode.mOutputNames) :
    ∃ i n, nodes[i]? = some n ∧ LastProducer nodes i x ∧
      (buildMaps nodes).indexAsyncNodeIdMap x = i ∧
      (buildMaps nodes).indexAsyncNodeMap x = some n := by
  induction nodes using List.reverseRecOn with
  | nil => cases hx
  | append_singleton nodes n ih =>
    rw [buildMaps_concat]
    obtain ⟨h1, h2⟩ := foldl_output_producer nodes.length n n.mOutputNames
      (n.mInputNames.foldl (BuildMaps.input nodes.length) (buildMaps nodes)) x
    obtain ⟨h3, h4⟩ := foldl_input_producer nodes.length n.mInputNames (buildMaps nodes)
    rw [h3] at h1
    rw [h4] at h2
    unfold BuildMaps.node
    rw [h1, h2]
    have hlen : (nodes ++ [n])[nodes.length]? = some n := by simp
    by_cases hn : x ∈ n.mOutputNames
    · refine ⟨nodes.length, n, hlen, ⟨⟨n, hlen, hn⟩, fun j m hj hm => ?_⟩, if_pos hn, if_pos hn⟩
      have := (List.getElem?_eq_some_iff.mp hm).1
      simp only [List.length_append, List.length_cons, List.length_nil] at this
      omega
    · rw [List.flatMap_append, List.mem_append] at hx
      obtain ⟨i, k, hk, ⟨⟨k', hk', hxk⟩, hlast⟩, hid, hnode⟩ :=
        ih (hx.resolve_right (by simpa using hn))
      have hi := (List.getElem?_eq_some_iff.mp hk).1
      have hget : (nodes ++ [n])[i]? = some k := by rw [List.getElem?_append_left hi, hk]
      rw [hk] at hk'
      cases hk'
      refine ⟨i, k, hget, ⟨⟨k, hget, hxk⟩, fun j m hj hm => ?_⟩, by rw [if_neg hn, hid],
        by rw [if_neg hn, hnode]⟩
      rcases Nat.lt_or_ge j nodes.length with hlt | hge
      · rw [List.getElem?_append_left hlt] at hm
        exact hlast j m hj hm
      · have hj' := (List.getElem?_eq_some_iff.mp hm).1
        simp only [List.length_append, List.length_cons, List.length_nil] at hj'
        obtain rfl : j = nodes.length := by omega
        rw [hlen] at hm
        cases hm
        exact hn

/-! ## The ready counters -/

theorem getD_resize {n i : Nat} (l : List Nat) (hi : i < n) :
    (resize n l).getD i 0 = l.getD i 0 := by
  unfold resize
  simp only [List.getD_eq_getElem?_getD, List.getElem?_append, List.getElem?_take,
    List.getElem?_replicate, List.length_take]
  split_ifs <;> simp_all

theorem length_resize (n : Nat) (l : List Nat) : (resize n l).length = n := by
  simp only [resize, List.length_append, List.length_take, List.length_replicate]
  omega

/-- The stores to `mKernelInfos` reach the last producers. -/
theorem mem_producers {nodes : List (AsyncNode F)} {i : Nat} :
    i ∈ (nodes.flatMap AsyncNode.mOutputNames).map (buildMaps nodes).indexAsyncNodeIdMap ↔
      Produces nodes i := by
  constructor
  · intro h
    obtain ⟨x, hx, rfl⟩ := List.mem_map.mp h
    obtain ⟨i, n, -, hlast, hid, -⟩ := exists_lastProducer nodes hx
    exact ⟨x, hid ▸ hlast⟩
  · rintro ⟨x, hlast⟩
    obtain ⟨n, hn, hx⟩ := hlast.1
    have hmem := List.mem_flatMap.mpr ⟨n, List.mem_of_getElem? hn, hx⟩
    obtain ⟨j, m, -, hlast', hid, -⟩ := exists_lastProducer nodes hmem
    exact List.mem_map.mpr ⟨x, hmem, hid.trans (hlast'.unique hlast)⟩

/-- The counter of the last producer of some name becomes its number of inputs; the others stay. -/
theorem storeCounters_getD (nodes : List (AsyncNode F)) (l : List Nat) {i : Nat}
    (hi : i < l.length) :
    (storeCounters (buildMaps nodes) (nodes.flatMap AsyncNode.mOutputNames) l).getD i 0 =
      if i ∈ (nodes.flatMap AsyncNode.mOutputNames).map (buildMaps nodes).indexAsyncNodeIdMap then
        numInputs nodes i else l.getD i 0 := by
  refine foldl_set_getD (fun x hx he => ?_) _ hi
  obtain ⟨j, n, hn, -, hid, hnode⟩ := exists_lastProducer nodes hx
  rw [hid] at he
  subst he
  rw [hnode, numInputs, hn]

/-! ## The user counts -/

/-- How often a name occurs. -/
def uses (nodes : List (AsyncNode F)) (x : String) : Nat :=
  (nodes.flatMap AsyncNode.mInputNames).count x + (nodes.flatMap AsyncNode.mOutputNames).count x

theorem buildMaps_counts (nodes : List (AsyncNode F)) (x : String) :
    (buildMaps nodes).argCountMap x + (buildMaps nodes).resCountMap x = uses nodes x := by
  rw [buildMaps_eq, foldl_argCountMap, foldl_resCountMap, (events_names nodes).1,
    (events_names nodes).2]
  simp [BuildMaps.empty, uses]

/-- The names of the graph are those that occur. -/
theorem mem_names {nodes : List (AsyncNode F)} {x : String} :
    x ∈ (buildMaps nodes).indexAsyncValueMap.map Prod.fst ↔ 0 < uses nodes x := by
  have hp : (build .insertion nodes).mNameAndAsyncIdPair.Perm
      (buildMaps nodes).indexAsyncValueMap := ids_perm
  rw [← (hp.map Prod.fst).mem_iff, mem_keys, uses, Nat.add_pos_iff_pos_or_pos,
    List.count_pos_iff, List.count_pos_iff, List.mem_flatMap, List.mem_flatMap]

/-- The user counts do not depend on what the vector held, nor on the iteration order. -/
theorem userCounts_getD {nodes : List (AsyncNode F)} {ids : List (String × Nat)}
    (hids : ids.Perm (buildMaps nodes).indexAsyncValueMap) (l : List Nat) {p : String × Nat}
    (hp : p ∈ ids) :
    (storeUserCounts (buildMaps nodes) ids (resize ids.length l)).getD p.2 0 =
      uses nodes p.1 - 1 := by
  have hsnd : (ids.map Prod.snd).Perm (List.range ids.length) := by
    have h := hids.map Prod.snd
    have hlen := hids.length_eq
    rw [(buildMaps_indexed nodes).ids] at h
    have := h.length_eq
    rw [List.length_map, List.length_range] at this
    rwa [← this] at h
  have hlt : p.2 < ids.length :=
    List.mem_range.mp (hsnd.mem_iff.mp (List.mem_map_of_mem hp))
  have hinj := List.inj_on_of_nodup_map (hsnd.nodup_iff.mpr List.nodup_range)
  unfold storeUserCounts
  rw [foldl_set_getD (v := uses nodes p.1 - 1) _ _ (by rw [length_resize]; exact hlt),
    if_pos (List.mem_map_of_mem hp)]
  intro q hq he
  rw [hinj hq hp he, buildMaps_counts]

/-! ## What `BuildGraph` leaves -/

/-- The names that occur once: nothing uses them. -/
def sinks (nodes : List (AsyncNode F)) : List String :=
  ((buildMaps nodes).indexAsyncValueMap.map Prod.fst).filter fun x => uses nodes x = 1

theorem sinks_eq_nil {nodes : List (AsyncNode F)} : sinks nodes = [] ↔ ∀ x, uses nodes x ≠ 1 := by
  unfold sinks
  rw [List.filter_eq_nil_iff]
  simp only [decide_eq_true_eq]
  constructor
  · intro h x hx
    exact h x (mem_names.mpr (by omega)) hx
  · intro h x _ hx
    exact h x hx

/-- The tables that every `BuildGraph` computes afresh. -/
structure Fresh (g : AsyncGraph F) (nodes : List (AsyncNode F)) : Prop where
  ids : g.mNameAndAsyncIdPair.Perm (buildMaps nodes).indexAsyncValueMap
  userCounts : ∀ p ∈ g.mNameAndAsyncIdPair, g.userCount p.2 = uses nodes p.1 - 1
  length : g.mUserCounts.length = g.mNameAndAsyncIdPair.length
  usedBy : g.mUsedByKernlTable = nodes.map fun n => n.mOutputNames.map
    (buildMaps nodes).usedCountmap

theorem fresh_buildGraph (order : HashOrder) (g : AsyncGraph F) :
    Fresh (buildGraph order g) g.mAsyncNodes where
  ids := order.perm _
  userCounts p hp := userCounts_getD (order.perm _) g.mUserCounts hp
  length := by
    show (storeUserCounts _ _ _).length = _
    rw [storeUserCounts, length_foldl_set, length_resize]
    rfl
  usedBy := rfl

/-- The output names that `BuildGraph` adds. -/
theorem buildGraph_outputs (order : HashOrder) (g : AsyncGraph F) :
    (buildGraph order g).mOutputNames.Perm (g.mOutputNames ++ sinks g.mAsyncNodes) := by
  have hfresh := fresh_buildGraph order g
  show (g.mOutputNames ++ ((buildGraph order g).mNameAndAsyncIdPair.filter fun p =>
    (buildGraph order g).userCount p.2 == 0).map Prod.fst).Perm _
  refine List.Perm.append_left _ ?_
  have hfilter : (buildGraph order g).mNameAndAsyncIdPair.filter (fun p =>
      (buildGraph order g).userCount p.2 == 0) =
      (buildGraph order g).mNameAndAsyncIdPair.filter fun p => uses g.mAsyncNodes p.1 = 1 := by
    refine List.filter_congr fun p hp => ?_
    have hpos := mem_names.mp (List.mem_map_of_mem (f := Prod.fst) (hfresh.ids.mem_iff.mp hp))
    rw [hfresh.userCounts p hp, Bool.eq_iff_iff, beq_iff_eq, decide_eq_true_eq]
    omega
  rw [hfilter, sinks, List.filter_map]
  exact (hfresh.ids.filter _).map _

/-- Two fresh tables of the same nodes hold the same user counts. -/
theorem Fresh.userCounts_eq {g g' : AsyncGraph F} {nodes : List (AsyncNode F)} (h : Fresh g nodes)
    (h' : Fresh g' nodes) : g.mUserCounts = g'.mUserCounts := by
  have hlen : ∀ {g : AsyncGraph F}, Fresh g nodes →
      g.mUserCounts.length = (buildMaps nodes).startId := fun h => by
    have := congrArg List.length (buildMaps_indexed nodes).ids
    rw [List.length_map, List.length_range] at this
    rw [h.length, h.ids.length_eq, this]
  refine List.ext_getElem ((hlen h).trans (hlen h').symm) fun i h1 h2 => ?_
  have hi : i ∈ (buildMaps nodes).indexAsyncValueMap.map Prod.snd := by
    rw [(buildMaps_indexed nodes).ids, List.mem_range, ← hlen h]
    exact h1
  obtain ⟨p, hp, rfl⟩ := List.mem_map.mp hi
  have e1 := h.userCounts p (h.ids.mem_iff.mpr hp)
  have e2 := h'.userCounts p (h'.ids.mem_iff.mpr hp)
  unfold userCount at e1 e2
  rw [List.getD_eq_getElem _ _ h1] at e1
  rw [List.getD_eq_getElem _ _ h2] at e2
  rw [e1, e2]

/-! ## Histories -/

/-- A call. -/
inductive Op (F : Type) where
  | emplace (inputNames outputNames : List String) (fn : F) (name : String)
  | buildGraph (order : HashOrder)
  | reset

/-- The graph after a call. -/
def call (g : AsyncGraph F) : Op F → AsyncGraph F
  | .emplace inputNames outputNames fn name => g.emplace inputNames outputNames fn name
  | .buildGraph order => g.buildGraph order
  | .reset => g.reset

/-- The graph after the calls `ops` on a new graph. -/
def calls (ops : List (Op F)) : AsyncGraph F := ops.foldl call (ofNodes [])

/-- What has happened since the last `Reset`. -/
structure Episode (F : Type) where
  /-- The nodes emplaced. -/
  nodes : List (AsyncNode F)
  /-- The nodes that each `BuildGraph` has found. -/
  builds : List (List (AsyncNode F))

/-- The episode after a call. -/
def Episode.call (e : Episode F) : Op F → Episode F
  | .emplace inputNames outputNames fn name =>
    { e with nodes := e.nodes ++ [⟨inputNames, outputNames, fn, name⟩] }
  | .buildGraph _ => { e with builds := e.builds ++ [e.nodes] }
  | .reset => ⟨[], []⟩

/-- The last episode of the calls `ops`. -/
def episode (ops : List (Op F)) : Episode F := ops.foldl Episode.call ⟨[], []⟩

/-- What an episode leaves in the two tables that are not computed afresh. -/
structure Tables (g : AsyncGraph F) (e : Episode F) : Prop where
  nodes : g.mAsyncNodes = e.nodes
  builds : ∀ b ∈ e.builds, b <+: e.nodes
  outputs : g.mOutputNames.Perm (e.builds.flatMap sinks)
  /-- The counter of a node that some build has found to be the last producer of a name. -/
  stored : ∀ i, (∃ b ∈ e.builds, Produces b i) →
    g.mArgumentsNotReady.getD i 0 = numInputs e.nodes i
  unstored : ∀ i, (¬ ∃ b ∈ e.builds, Produces b i) → g.mArgumentsNotReady.getD i 0 = 0

theorem Tables.ofNodes (nodes : List (AsyncNode F)) : Tables (ofNodes nodes) ⟨nodes, []⟩ where
  nodes := rfl
  builds := nofun
  outputs := .refl _
  stored := by simp
  unstored _ _ := rfl

/-- A producer is a node. -/
theorem Produces.lt {nodes : List (AsyncNode F)} {i : Nat} (h : Produces nodes i) :
    i < nodes.length := by
  obtain ⟨x, ⟨n, hn, -⟩, -⟩ := h
  exact (List.getElem?_eq_some_iff.mp hn).1

theorem Tables.call {g : AsyncGraph F} {e : Episode F} (h : Tables g e) (op : Op F) :
    Tables (g.call op) (e.call op) := by
  cases op with
  | reset => exact .ofNodes []
  | emplace inputNames outputNames fn name =>
    refine ⟨?_, fun b hb => (h.builds b hb).trans (List.prefix_append _ _), h.outputs, ?_,
      h.unstored⟩
    · show g.mAsyncNodes ++ _ = _
      rw [h.nodes]
      rfl
    · rintro i ⟨b, hb, hi⟩
      have hlt : i < e.nodes.length := hi.lt.trans_le (h.builds b hb).length_le
      show g.mArgumentsNotReady.getD i 0 = numInputs (e.nodes ++ _) i
      rw [h.stored i ⟨b, hb, hi⟩, numInputs, numInputs, List.getElem?_append_left hlt]
  | buildGraph order =>
    have hcounters : (buildGraph order g).mArgumentsNotReady = storeCounters (buildMaps e.nodes)
        (e.nodes.flatMap AsyncNode.mOutputNames) (resize e.nodes.length g.mArgumentsNotReady) := by
      rw [← h.nodes]
      rfl
    have hbuilt : ∀ i, (∃ b ∈ e.builds ++ [e.nodes], Produces b i) → i < e.nodes.length := by
      rintro i ⟨b, hb, hi⟩
      rcases List.mem_append.mp hb with hb | hb
      · exact hi.lt.trans_le (h.builds b hb).length_le
      · rw [List.mem_singleton.mp hb] at hi
        exact hi.lt
    have hget : ∀ i, i < e.nodes.length → (buildGraph order g).mArgumentsNotReady.getD i 0 =
        if i ∈ (e.nodes.flatMap AsyncNode.mOutputNames).map
          (buildMaps e.nodes).indexAsyncNodeIdMap then numInputs e.nodes i
        else g.mArgumentsNotReady.getD i 0 := fun i hi => by
      rw [hcounters, storeCounters_getD _ _ (by rw [length_resize]; exact hi), getD_resize _ hi]
    refine ⟨h.nodes, fun b hb => ?_, ?_, fun i hi => ?_, fun i hi => ?_⟩
    · rcases List.mem_append.mp hb with hb | hb
      · exact h.builds b hb
      · rw [List.mem_singleton.mp hb]
        exact List.prefix_rfl
    · show (buildGraph order g).mOutputNames.Perm ((e.builds ++ [e.nodes]).flatMap sinks)
      rw [List.flatMap_append, List.flatMap_singleton, ← h.nodes]
      exact (buildGraph_outputs order g).trans (h.outputs.append_right _)
    · show (buildGraph order g).mArgumentsNotReady.getD i 0 = numInputs e.nodes i
      rw [hget i (hbuilt i hi)]
      split
      · rfl
      · rename_i hn
        obtain ⟨b, hb, hp⟩ := hi
        rcases List.mem_append.mp hb with hb | hb
        · exact h.stored i ⟨b, hb, hp⟩
        · rw [List.mem_singleton.mp hb] at hp
          exact absurd (mem_producers.mpr hp) hn
    · show (buildGraph order g).mArgumentsNotReady.getD i 0 = 0
      rcases Nat.lt_or_ge i e.nodes.length with hlt | hge
      · rw [hget i hlt, if_neg fun hn => hi ⟨e.nodes, by simp [Episode.call], mem_producers.mp hn⟩]
        exact h.unstored i fun ⟨b, hb, hp⟩ => hi ⟨b, by simp [Episode.call, hb], hp⟩
      · rw [hcounters, storeCounters]
        refine List.getD_eq_default _ _ ?_
        rw [length_foldl_set, length_resize]
        exact hge

theorem tables_calls (ops : List (Op F)) : Tables (calls ops) (episode ops) := by
  unfold calls episode
  induction ops using List.reverseRecOn with
  | nil => exact .ofNodes []
  | append_singleton ops op ih =>
    rw [List.foldl_append, List.foldl_append]
    exact ih.call op

/-! ## Building again -/

/-- The derived tables are the same: the indices as a map, the output names as a multiset. -/
structure SameTables (g g' : AsyncGraph F) : Prop where
  ids : g.mNameAndAsyncIdPair.Perm g'.mNameAndAsyncIdPair
  userCounts : g.mUserCounts = g'.mUserCounts
  counters : g.mArgumentsNotReady = g'.mArgumentsNotReady
  usedBy : g.mUsedByKernlTable = g'.mUsedByKernlTable
  outputs : g.getOutputNames.Perm g'.getOutputNames

/-- The earlier builds of the episode have left nothing behind: none has found a name that occurs
once, and every node with inputs that one of them has found to be the last producer of a name is the
last producer of a name still. -/
structure Episode.Clean (e : Episode F) : Prop where
  outputs : ∀ b ∈ e.builds, ∀ x, uses b x ≠ 1
  counters : ∀ b ∈ e.builds, ∀ i, Produces b i → numInputs e.nodes i ≠ 0 → Produces e.nodes i

theorem length_counters_buildGraph (order : HashOrder) (g : AsyncGraph F) :
    (buildGraph order g).mArgumentsNotReady.length = g.mAsyncNodes.length := by
  show (storeCounters _ _ _).length = _
  rw [storeCounters, length_foldl_set, length_resize]

/-- **Building again gives the tables of a fresh build exactly when the earlier builds left nothing
behind.** `BuildGraph` clears neither `mOutputNames` nor the counters that it does not write. -/
theorem buildGraph_same_iff (ops : List (Op F)) (order order' : HashOrder) :
    SameTables (calls (ops ++ [.buildGraph order])) (build order' (episode ops).nodes) ↔
      (episode ops).Clean := by
  obtain ⟨e, he⟩ : ∃ e, e = episode ops := ⟨_, rfl⟩
  obtain ⟨g, hg⟩ : ∃ g : AsyncGraph F, g = calls ops := ⟨_, rfl⟩
  have hlast : calls (ops ++ [.buildGraph order]) = buildGraph order g := by
    rw [hg, calls, calls, List.foldl_append]
    rfl
  have hT : Tables g e := he ▸ hg ▸ tables_calls ops
  have hold : Tables (buildGraph order g) (e.call (.buildGraph order)) :=
    hT.call (.buildGraph order)
  have hnew : Tables (build order' e.nodes) ⟨e.nodes, [e.nodes]⟩ :=
    (Tables.ofNodes e.nodes).call (.buildGraph order')
  have hfresh : Fresh (buildGraph order g) e.nodes := hT.nodes ▸ fresh_buildGraph order g
  have hfresh' : Fresh (build order' e.nodes) e.nodes := fresh_buildGraph order' (.ofNodes e.nodes)
  have hout := hold.outputs
  have hout' := hnew.outputs
  simp only [Episode.call, List.flatMap_append, List.flatMap_singleton] at hout hout'
  rw [hlast, ← he]
  constructor
  · intro h
    refine ⟨fun b hb => ?_, fun b hb i hi hn => Classical.not_not.mp fun hprod => ?_⟩
    · have hlen := ((hout.symm.trans h.outputs).trans hout').length_eq
      rw [List.length_append] at hlen
      have hnil : e.builds.flatMap sinks = [] := List.eq_nil_of_length_eq_zero (by omega)
      exact sinks_eq_nil.mp (List.flatMap_eq_nil_iff.mp hnil b hb)
    · have h1 := hold.stored i ⟨b, List.mem_append_left _ hb, hi⟩
      have h2 := hnew.unstored i (by simpa using hprod)
      rw [h.counters, h2] at h1
      exact hn h1.symm
  · intro h
    refine ⟨hfresh.ids.trans hfresh'.ids.symm, hfresh.userCounts_eq hfresh', ?_,
      hfresh.usedBy.trans hfresh'.usedBy.symm, ?_⟩
    · have hlen : (buildGraph order g).mArgumentsNotReady.length =
          (build order' e.nodes).mArgumentsNotReady.length := by
        rw [length_counters_buildGraph, build, length_counters_buildGraph, hT.nodes]
        rfl
      refine List.ext_getElem hlen fun i h1 h2 => ?_
      rw [← List.getD_eq_getElem _ 0 h1, ← List.getD_eq_getElem _ 0 h2]
      by_cases hi : Produces e.nodes i
      · rw [hold.stored i ⟨e.nodes, by simp [Episode.call], hi⟩,
          hnew.stored i ⟨e.nodes, by simp, hi⟩]
        rfl
      · rw [hnew.unstored i (by simpa using hi)]
        by_cases hb : ∃ b ∈ e.builds, Produces b i
        · obtain ⟨b, hb, hp⟩ := hb
          rw [hold.stored i ⟨b, List.mem_append_left _ hb, hp⟩]
          exact Classical.not_not.mp fun hn => hi (h.counters b hb i hp hn)
        · refine hold.unstored i fun ⟨b, hm, hp⟩ => ?_
          rcases List.mem_append.mp hm with hm | hm
          · exact hb ⟨b, hm, hp⟩
          · rw [List.mem_singleton.mp hm] at hp
            exact hi hp
    · have hnil : e.builds.flatMap sinks = [] :=
        List.flatMap_eq_nil_iff.mpr fun b hb => sinks_eq_nil.mpr (h.outputs b hb)
      rw [hnil, List.nil_append] at hout
      exact hout.trans hout'.symm

/-- A start node and a node that uses its output, built twice. -/
def builtTwice : List (Op Unit) :=
  [.emplace [] ["x"] () "start", .emplace ["x"] ["y"] () "run", .buildGraph .insertion]

/-- **The output `y` is listed twice** after the second build, so `RunAsyncGraph` asks for two
results of a graph that fills one register. -/
theorem not_buildGraph_same :
    ¬ ∀ (ops : List (Op Unit)) (order order' : HashOrder),
      SameTables (calls (ops ++ [.buildGraph order])) (build order' (episode ops).nodes) := by
  intro h
  have := (h builtTwice .insertion .insertion).outputs.length_eq
  revert this
  decide

end AsyncGraph

end AsyncLib
