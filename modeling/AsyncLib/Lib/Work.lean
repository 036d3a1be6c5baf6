import Mathlib.Algebra.BigOperators.Group.Finset.Basic
import Mathlib.Algebra.Order.BigOperators.Group.Finset
import Mathlib.Algebra.GroupWithZero.Nat
import Mathlib.Algebra.Group.Int.Defs

/-!
# Work that ready and idle items bring

The parts of a potential for a pool of threads. An item has a counter, and is ready when its counter
reaches zero. A thread holds a vector of ready items; it processes the first one and hands the others
over.

* `readyCost`: the work that a vector of ready items brings, `readyCost_append` with new ones.
* `idleCost`: the work that the items bring whose counters are positive. `idleCost_decrease`: an item
  that becomes ready was paid for while it was idle.
-/

namespace AsyncLib

namespace Work

/-! ## Ready items -/

section Ready

variable {ι : Type} {first later : ι → Nat}

/-- The first item costs `first` and the thread one round, the others cost `later`. -/
def readyCost (first later : ι → Nat) : List ι → Nat
  | [] => 0
  | k :: ks => first k + 1 + (ks.map later).sum

/-- New ready items are the first or later ones. -/
theorem readyCost_append (h : ∀ k, first k < later k) (l l' : List ι) :
    readyCost first later (l ++ l') ≤ readyCost first later l + (l'.map later).sum := by
  cases l with
  | nil =>
    cases l' with
    | nil => exact Nat.le_refl _
    | cons k ks =>
      have := h k
      simp only [List.nil_append, readyCost, List.map_cons, List.sum_cons]
      omega
  | cons k ks =>
    simp only [List.cons_append, readyCost, List.map_append, List.sum_append]
    omega

end Ready

/-! ## Idle items -/

/-- The items below `n` whose counters are positive. -/
def idleCost (n : Nat) (later : Nat → Nat) (count : Nat → Int) : Nat :=
  ∑ k ∈ Finset.range n, if 0 < count k then later k else 0

/-- An item that becomes ready is not idle any more. -/
theorem idleCost_decrease {n : Nat} (later : Nat → Nat) (count : Nat → Int) {u : Nat} (hu : u < n) :
    idleCost n later (Function.update count u (count u - 1)) +
      ((if count u = 1 then [u] else []).map later).sum ≤ idleCost n later count := by
  have hmem := Finset.mem_range.mpr hu
  unfold idleCost
  rw [← Finset.add_sum_erase _ _ hmem, ← Finset.add_sum_erase _ _ hmem]
  have hrest : ∑ k ∈ (Finset.range n).erase u,
      (if 0 < Function.update count u (count u - 1) k then later k else 0) =
        ∑ k ∈ (Finset.range n).erase u, (if 0 < count k then later k else 0) :=
    Finset.sum_congr rfl fun k hk => by rw [Function.update_of_ne (Finset.ne_of_mem_erase hk)]
  simp only [hrest, Function.update_self]
  have hself : (if 0 < count u - 1 then later u else 0) +
      ((if count u = 1 then [u] else []).map later).sum ≤ if 0 < count u then later u else 0 := by
    by_cases h1 : count u = 1
    · simp [h1]
    · rw [if_neg h1, List.map_nil, List.sum_nil, Nat.add_zero]
      split
      · rw [if_pos (by omega)]
      · exact Nat.zero_le _
  omega

end Work

end AsyncLib
