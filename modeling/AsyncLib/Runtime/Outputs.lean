import AsyncLib.Runtime.Rebuild

/-!
# The output names of a built graph

`BuildGraph` takes as outputs the names whose `mUserCount` is 0. That number is the count of all
occurrences of the name, as an input and as an output, less the one of its producer.

* `mem_outputNames`: the names that occur once are listed.
* `outputNames_right_iff`: with at most one producer for each name, these are the names that are
  produced and not consumed if and only if no name without a producer is consumed once. Such a name
  loses an occurrence to a producer that it does not have.
-/

namespace AsyncLib

namespace AsyncGraph

variable {F : Type}

/-- How often a name is an input. -/
def consumed (nodes : List (AsyncNode F)) (x : String) : Nat :=
  (nodes.flatMap AsyncNode.mInputNames).count x

/-- How often a name is an output. -/
def produced (nodes : List (AsyncNode F)) (x : String) : Nat :=
  (nodes.flatMap AsyncNode.mOutputNames).count x

/-- The list holds each name that is produced and not consumed once, and no other. -/
structure OutputNamesRight (nodes : List (AsyncNode F)) (names : List String) : Prop where
  nodup : names.Nodup
  mem_iff : ∀ x, x ∈ names ↔ produced nodes x ≠ 0 ∧ consumed nodes x = 0

/-- A name without a producer is not consumed exactly once. -/
def NoSingleFreeInput (nodes : List (AsyncNode F)) : Prop :=
  ∀ x, produced nodes x = 0 → consumed nodes x ≠ 1

variable {nodes : List (AsyncNode F)} (order : HashOrder)

/-- The names that occur once, each of them once. -/
theorem outputNames_perm : (build order nodes).getOutputNames.Perm (sinks nodes) := by
  have h := buildGraph_outputs order (ofNodes nodes)
  rwa [show (ofNodes nodes).mOutputNames = [] from rfl, List.nil_append] at h

theorem outputNames_nodup : (build order nodes).getOutputNames.Nodup :=
  (outputNames_perm order).nodup_iff.mpr ((buildMaps_indexed nodes).nodup.filter _)

/-- A name is listed if it occurs once. -/
theorem mem_outputNames {x : String} :
    x ∈ (build order nodes).getOutputNames ↔ consumed nodes x + produced nodes x = 1 := by
  rw [(outputNames_perm order).mem_iff, sinks, List.mem_filter, decide_eq_true_eq]
  constructor
  · rintro ⟨-, h⟩
    exact h
  · intro h
    have hpos : 0 < uses nodes x := by
      rw [uses]
      exact h ▸ Nat.zero_lt_one
    exact ⟨mem_names.mpr hpos, h⟩

/-- **The output names are those that are produced and not consumed if and only if no name without a
producer is consumed exactly once.** -/
theorem outputNames_right_iff (nodes : List (AsyncNode F))
    (hnodup : (nodes.flatMap AsyncNode.mOutputNames).Nodup) :
    OutputNamesRight nodes (build order nodes).getOutputNames ↔ NoSingleFreeInput nodes := by
  constructor
  · intro h x hfree hone
    have hlisted : x ∈ (build order nodes).getOutputNames :=
      (mem_outputNames order).mpr (by rw [hfree, hone])
    exact ((h.mem_iff x).mp hlisted).1 hfree
  · intro h
    refine ⟨outputNames_nodup order, fun x => ?_⟩
    have hle : produced nodes x ≤ 1 := List.nodup_iff_count_le_one.mp hnodup x
    have hx := h x
    rw [mem_outputNames]
    omega

/-- A start node, and a node that adds its output to a name that nobody produces. -/
def freeInput : List (AsyncNode Unit) :=
  [⟨[], ["x"], (), "start"⟩, ⟨["x", "y"], ["z"], (), "add"⟩]

/-- The equivalence at `freeInput`. -/
theorem outputNames_right_freeInput :
    ¬ OutputNamesRight freeInput (build .insertion freeInput).getOutputNames := by
  rw [outputNames_right_iff .insertion freeInput (by decide)]
  intro h
  exact h "y" (by decide) (by decide)

/-- The free input `y` is listed among the outputs. -/
theorem not_outputNames_right :
    ¬ ∀ (order : HashOrder) (nodes : List (AsyncNode Unit)),
      (nodes.flatMap AsyncNode.mOutputNames).Nodup →
        OutputNamesRight nodes (build order nodes).getOutputNames := by
  intro h
  have hlisted : "y" ∈ (build .insertion freeInput).getOutputNames :=
    (mem_outputNames _).mpr (by decide)
  have hright := h .insertion freeInput (by decide)
  exact ((hright.mem_iff "y").mp hlisted).1 (by decide)

end AsyncGraph

end AsyncLib
