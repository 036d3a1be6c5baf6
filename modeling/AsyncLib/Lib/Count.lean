import Mathlib.Data.Finset.Card
import Mathlib.Data.Finset.Range
import Mathlib.Data.List.Basic
import Mathlib.Logic.Function.Basic
import Mathlib.Algebra.GroupWithZero.Nat
import Mathlib.Algebra.Group.Int.Defs

/-!
# Counting threads

The number of the first `n` threads whose control point has a property. One thread's move changes
it by the difference at that thread (`count_update`; `countP_set_add` for a list of threads).
-/

namespace AsyncLib

variable {π : Type} {p : π → Bool} {n : Nat} {f : Nat → π}

/-- The number of the threads below `n` that are at a point with `p`. -/
def count (p : π → Bool) (n : Nat) (f : Nat → π) : Nat := (List.range n).countP fun t => p (f t)

theorem count_le : count p n f ≤ n := by
  have := List.countP_le_length (p := fun t => p (f t)) (l := List.range n)
  rwa [List.length_range] at this

theorem count_succ : count p (n + 1) f = count p n f + (p (f n)).toNat := by
  rw [count, List.range_succ, List.countP_append, List.countP_singleton]
  cases p (f n) <;> rfl

theorem count_congr {g : Nat → π} (h : ∀ t < n, p (f t) = p (g t)) :
    count p n f = count p n g :=
  List.countP_congr fun t ht => by rw [h t (List.mem_range.mp ht)]

/-- The count as the size of a set of threads. -/
theorem count_eq_card : count p n f = ((Finset.range n).filter fun t => p (f t) = true).card := by
  induction n with
  | zero => rfl
  | succ n ih =>
    rw [count_succ, ih, Finset.range_add_one, Finset.filter_insert]
    cases h : p (f n) with
    | false => simp
    | true => simp

/-- A move of thread `t` to `x`. -/
theorem count_update {t : Nat} (ht : t < n) (x : π) :
    count p n (Function.update f t x) + (p (f t)).toNat = count p n f + (p x).toNat := by
  induction n with
  | zero => omega
  | succ n ih =>
    rw [count_succ, count_succ]
    by_cases h : t = n
    · subst h
      rw [Function.update_self, count_congr (g := f) fun u hu => by
        rw [Function.update_of_ne (by omega)]]
      omega
    · rw [Function.update_of_ne (Ne.symm h)]
      have := ih (by omega)
      omega

theorem count_pos {t : Nat} (ht : t < n) (h : p (f t) = true) : 0 < count p n f :=
  List.countP_pos_iff.mpr ⟨t, List.mem_range.mpr ht, h⟩

/-- A thread without the property is not counted. -/
theorem count_lt {t : Nat} (ht : t < n) (h : p (f t) = false) : count p n f < n := by
  refine Nat.lt_of_le_of_ne count_le fun he => ?_
  have hlen : (List.range n).countP (fun t => p (f t)) = (List.range n).length := by
    rw [List.length_range]
    exact he
  have := List.countP_eq_length.mp hlen t (List.mem_range.mpr ht)
  rw [h] at this
  cases this

theorem countP_cons_toNat (l : List π) (y : π) : (y :: l).countP p = l.countP p + (p y).toNat := by
  rw [List.countP_cons]
  cases p y <;> rfl

theorem countP_concat (l : List π) (y : π) : (l ++ [y]).countP p = l.countP p + (p y).toNat := by
  rw [List.countP_append, List.countP_singleton]
  cases p y <;> rfl

/-- If the stronger of two properties counts as many, they agree. -/
theorem of_countP_eq {q : π → Bool} {l : List π} (hpq : ∀ x ∈ l, p x = true → q x = true)
    (h : l.countP q = l.countP p) : ∀ x ∈ l, q x = true → p x = true := by
  induction l with
  | nil => simp
  | cons y l ih =>
    have hy := hpq y (by simp)
    have hl : ∀ x ∈ l, p x = true → q x = true := fun x hx => hpq x (by simp [hx])
    have hle := List.countP_mono_left hl
    rw [countP_cons_toNat, countP_cons_toNat] at h
    have hsame : p y = q y ∧ l.countP q = l.countP p := by
      cases hp : p y with
      | true =>
        rw [hp, hy hp] at h
        exact ⟨(hy hp).symm, Nat.add_right_cancel h⟩
      | false =>
        cases hq : q y with
        | true =>
          rw [hp, hq, Bool.toNat_true, Bool.toNat_false] at h
          omega
        | false =>
          rw [hp, hq] at h
          exact ⟨rfl, Nat.add_right_cancel h⟩
    intro x hx hqx
    rcases List.mem_cons.mp hx with rfl | hx
    · rw [hsame.1, hqx]
    · exact ih hl hsame.2 x hx hqx

/-- One entry of a list is replaced. -/
theorem countP_set_add {l : List π} {t : Nat} {x y : π} (h : l[t]? = some x) :
    (l.set t y).countP p + (p x).toNat = l.countP p + (p y).toNat := by
  induction l generalizing t with
  | nil => cases h
  | cons z l ih =>
    cases t with
    | zero =>
      cases h
      simp only [List.set_cons_zero, List.countP_cons]
      cases p x <;> cases p y <;> simp +arith
    | succ t =>
      have := ih h
      simp only [List.set_cons_succ, List.countP_cons]
      omega

end AsyncLib
