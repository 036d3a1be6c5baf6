import Mathlib.Data.List.Basic
import Mathlib.Logic.Function.Basic
import Mathlib.Algebra.GroupWithZero.Nat
import Mathlib.Algebra.Group.Int.Defs

/-!
# Linked lists in shared memory

Nodes are values of a type `ν`, `next` is the content of their link fields. `Linked next p l` says
that following the links from the pointer `p` visits exactly the nodes `l`, in that order, and ends
in a null pointer. A write to the link of a node outside the list keeps it (`Linked.update`).
-/

namespace AsyncLib

variable {ν : Type}

/-- The links from `p` visit the nodes `l` and end in a null pointer. -/
def Linked (next : ν → Option ν) : Option ν → List ν → Prop
  | p, [] => p = none
  | p, n :: ns => p = some n ∧ Linked next (next n) ns

namespace Linked

variable {next : ν → Option ν} {p : Option ν} {l : List ν}

theorem nil (next : ν → Option ν) : Linked next none [] := rfl

theorem eq_nil (h : Linked next none l) : l = [] := by
  cases l with
  | nil => rfl
  | cons n ns => cases h.1

/-- The list behind a pointer to `n` starts with `n`. -/
theorem exists_cons {n : ν} (h : Linked next (some n) l) :
    ∃ ns, l = n :: ns ∧ Linked next (next n) ns := by
  cases l with
  | nil => cases h
  | cons m ns =>
    obtain ⟨he, ht⟩ := h
    cases he
    exact ⟨ns, rfl, ht⟩

/-- The links are followed among the nodes of the list only. -/
theorem congr {next' : ν → Option ν} (h : Linked next p l) (he : ∀ n ∈ l, next' n = next n) :
    Linked next' p l := by
  induction l generalizing p with
  | nil => exact h
  | cons n ns ih =>
    obtain ⟨h1, h2⟩ := h
    refine ⟨h1, ?_⟩
    rw [he n List.mem_cons_self]
    exact ih h2 fun u hu => he u (List.mem_cons_of_mem n hu)

/-- A write to the link of a node outside the list. -/
theorem update [DecidableEq ν] {m : ν} (q : Option ν) (hm : m ∉ l) (h : Linked next p l) :
    Linked (Function.update next m q) p l := by
  refine h.congr fun n hn => Function.update_of_ne ?_ ..
  rintro rfl
  exact hm hn

end Linked

end AsyncLib
