import Mathlib.Algebra.BigOperators.Group.Finset.Basic
import Mathlib.Algebra.GroupWithZero.Nat
import Mathlib.Algebra.Group.Int.Defs

/-!
# A worklist over names with a set of visited nodes

Names are taken from a queue. The node that makes a name is visited when it is met for the first time,
and then the names that it needs are queued. A name may be queued many times, and a node may be met
through several names.

* `Needed`: the nodes that the roots need.
* `Inv`: what a round keeps; `Inv.visited_iff`: an empty queue has visited what is needed.
* `work`: the number of rounds to come is bounded (`visit_work`).
-/

namespace AsyncLib

namespace Worklist

variable {X K : Type}

/-- The nodes that make the roots, or a name that such a node needs. -/
inductive Needed (makes : K → X → Prop) (needs : K → List X) (roots : List X) : K → Prop
  | root {k : K} {x : X} : x ∈ roots → makes k x → Needed makes needs roots k
  | need {k k' : K} {x : X} : Needed makes needs roots k → x ∈ needs k → makes k' x →
      Needed makes needs roots k'

/-- The queue, and the visited nodes in the order of their visits. -/
structure State (X K : Type) where
  queue : List X
  visited : List K

variable [DecidableEq K]

/-- A round that takes a name of the node `k`. -/
def visit (needs : K → List X) (k : K) (s : State X K) : State X K :=
  if k ∈ s.visited then { s with queue := s.queue.tail }
  else ⟨s.queue.tail ++ needs k, s.visited ++ [k]⟩

variable {makes : K → X → Prop} {needs : K → List X} {roots : List X} {s : State X K} {k : K} {x : X}

/-- The name is dealt with, or is still queued. -/
def Served (makes : K → X → Prop) (s : State X K) (x : X) : Prop :=
  x ∈ s.queue ∨ ∃ k ∈ s.visited, makes k x

/-- What a round keeps. -/
structure Inv (makes : K → X → Prop) (needs : K → List X) (roots : List X) (s : State X K) : Prop where
  nodup : s.visited.Nodup
  needed : ∀ k ∈ s.visited, Needed makes needs roots k
  queued : ∀ x ∈ s.queue, ∀ k, makes k x → Needed makes needs roots k
  roots : ∀ x ∈ roots, Served makes s x
  needs : ∀ k ∈ s.visited, ∀ x ∈ needs k, Served makes s x

omit [DecidableEq K] in
theorem Inv.init : Inv makes needs roots ⟨roots, []⟩ where
  nodup := List.nodup_nil
  needed := nofun
  queued _ hx _ hk := .root hx hk
  roots _ hx := .inl hx
  needs := nofun

/-- A name that was dealt with or queued stays so. -/
theorem Served.visit {q : List X} (hq : s.queue = x :: q) (hk : makes k x) {y : X}
    (h : Served makes s y) : Served makes (visit needs k s) y := by
  unfold Worklist.visit
  rw [Served, hq, List.mem_cons] at h
  split
  · rename_i hv
    rcases h with (rfl | hy) | ⟨k', hk', hm⟩
    · exact .inr ⟨k, hv, hk⟩
    · exact .inl (by rw [hq]; exact hy)
    · exact .inr ⟨k', hk', hm⟩
  · rcases h with (rfl | hy) | ⟨k', hk', hm⟩
    · exact .inr ⟨k, by simp, hk⟩
    · exact .inl (List.mem_append_left _ (by rw [hq]; exact hy))
    · exact .inr ⟨k', List.mem_append_left _ hk', hm⟩

theorem Inv.visit (h : Inv makes needs roots s) {q : List X} (hq : s.queue = x :: q)
    (hk : makes k x) : Inv makes needs roots (visit needs k s) := by
  have hserved : ∀ {y}, Served makes s y → Served makes (Worklist.visit needs k s) y :=
    Served.visit hq hk
  have hneeded : Needed makes needs roots k := h.queued x (hq ▸ List.mem_cons_self) k hk
  have htail : ∀ y ∈ s.queue.tail, ∀ k', makes k' y → Needed makes needs roots k' :=
    fun y hy => h.queued y (List.mem_of_mem_tail hy)
  by_cases hv : k ∈ s.visited
  · have he : Worklist.visit needs k s = { s with queue := s.queue.tail } := if_pos hv
    rw [he] at hserved ⊢
    exact ⟨h.nodup, h.needed, htail, fun y hy => hserved (h.roots y hy),
      fun k' hk' y hy => hserved (h.needs k' hk' y hy)⟩
  · have he : Worklist.visit needs k s = ⟨s.queue.tail ++ needs k, s.visited ++ [k]⟩ := if_neg hv
    rw [he] at hserved ⊢
    refine ⟨?_, fun k' hk' => ?_, fun y hy => ?_, fun y hy => hserved (h.roots y hy),
      fun k' hk' y hy => ?_⟩
    · refine List.nodup_append.mpr ⟨h.nodup, by simp, ?_⟩
      rintro a ha b hb rfl
      exact hv (List.mem_singleton.mp hb ▸ ha)
    · rcases List.mem_append.mp hk' with hk' | hk'
      · exact h.needed k' hk'
      · rwa [List.mem_singleton.mp hk']
    · rcases List.mem_append.mp hy with hy | hy
      · exact htail y hy
      · exact fun k' hm => .need hneeded hy hm
    · rcases List.mem_append.mp hk' with hk' | hk'
      · exact hserved (h.needs k' hk' y hy)
      · rw [List.mem_singleton.mp hk'] at hy
        exact .inl (List.mem_append_right _ hy)

omit [DecidableEq K] in
/-- **An empty queue has visited what is needed**, if a name is made by one node only. -/
theorem Inv.visited_iff (h : Inv makes needs roots s)
    (huniq : ∀ {k k' : K} {x : X}, makes k x → makes k' x → k = k') (hq : s.queue = []) (k : K) :
    k ∈ s.visited ↔ Needed makes needs roots k := by
  have hserved : ∀ {k x}, Served makes s x → makes k x → k ∈ s.visited := by
    rintro k x (hx | ⟨k', hk', hm⟩) hk
    · rw [hq] at hx
      cases hx
    · rwa [huniq hk hm]
  refine ⟨h.needed k, fun hk => ?_⟩
  induction hk with
  | root hx hm => exact hserved (h.roots _ hx) hm
  | need _ hx hm ih => exact hserved (h.needs _ ih _ hx) hm

/-- The queued names, and those that unvisited nodes would queue. -/
def work (all : Finset K) (needs : K → List X) (s : State X K) : Nat :=
  s.queue.length + ∑ k ∈ all \ s.visited.toFinset, (needs k).length

/-- A round does one unit of work. -/
theorem visit_work {all : Finset K} (hall : k ∈ all) {q : List X} (hq : s.queue = x :: q) :
    work all needs (visit needs k s) + 1 = work all needs s := by
  unfold Worklist.visit work
  split
  · simp only [hq, List.tail_cons, List.length_cons]
    omega
  · rename_i hv
    have hmem : k ∈ all \ s.visited.toFinset :=
      Finset.mem_sdiff.mpr ⟨hall, fun h => hv (List.mem_toFinset.mp h)⟩
    have hset : all \ (s.visited ++ [k]).toFinset = (all \ s.visited.toFinset).erase k := by
      ext y
      simp only [Finset.mem_sdiff, List.mem_toFinset, List.mem_append, List.mem_singleton, not_or,
        Finset.mem_erase]
      tauto
    have hsum := Finset.add_sum_erase _ (fun k => (needs k).length) hmem
    simp only [hset, hq, List.tail_cons, List.length_append, List.length_cons]
    omega

end Worklist

end AsyncLib
