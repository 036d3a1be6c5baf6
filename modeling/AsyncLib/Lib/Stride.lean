import Mathlib.Data.List.Nodup
import Mathlib.Data.List.Perm.Subperm
import Mathlib.Data.Nat.ModEq
import Mathlib.Algebra.GroupWithZero.Nat
import Mathlib.Algebra.Group.Int.Defs

/-!
# A walk around a circle

From `start`, `n` steps of length `step` around a circle of `n` places. A step that is coprime to
`n` visits every place once (`stride_perm`).
-/

namespace AsyncLib

/-- The place after `k` steps. -/
def stride (n start step k : Nat) : Nat := (start + k * step) % n

variable {n start step : Nat}

theorem stride_lt (hn : 0 < n) (k : Nat) : stride n start step k < n := Nat.mod_lt _ hn

theorem stride_succ (k : Nat) :
    stride n start step (k + 1) = (stride n start step k + step) % n := by
  rw [stride, stride, Nat.mod_add_mod, Nat.succ_mul, Nat.add_assoc]

/-- In `n` steps no place is visited twice. -/
theorem stride_inj (h : Nat.Coprime step n) {i j : Nat} (hi : i < n) (hj : j < n)
    (hij : stride n start step i = stride n start step j) : i = j := by
  have hmod : i * step ≡ j * step [MOD n] := Nat.ModEq.add_left_cancel' start hij
  have := Nat.ModEq.cancel_right_of_coprime (Nat.Coprime.symm h) hmod
  rwa [Nat.ModEq, Nat.mod_eq_of_lt hi, Nat.mod_eq_of_lt hj] at this

/-- A coprime step visits every place. -/
theorem stride_perm (hn : 0 < n) (h : Nat.Coprime step n) :
    ((List.range n).map (stride n start step)).Perm (List.range n) := by
  have hnodup : ((List.range n).map (stride n start step)).Nodup := by
    refine (List.nodup_map_iff_inj_on List.nodup_range).mpr fun i hi j hj hij => ?_
    exact stride_inj h (List.mem_range.mp hi) (List.mem_range.mp hj) hij
  have hsub : ∀ v ∈ (List.range n).map (stride n start step), v ∈ List.range n := by
    intro v hv
    obtain ⟨k, -, rfl⟩ := List.mem_map.mp hv
    exact List.mem_range.mpr (stride_lt hn k)
  exact (List.subperm_of_subset hnodup hsub).perm_of_length_le (by simp)

end AsyncLib
