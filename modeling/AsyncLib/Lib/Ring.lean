import Mathlib.Data.List.Basic
import Mathlib.Logic.Function.Basic
import Mathlib.Data.Fin.Basic
import Mathlib.Algebra.GroupWithZero.Nat
import Mathlib.Algebra.Group.Int.Defs

/-!
# Rings of slots

A ring of `cap` slots that holds a list. Positions are integers that never wrap: a push at the upper
end takes the next position up, a push at the lower end the next one down. A position is stored in
the slot of its residue modulo `cap`, so two positions share a slot only when they are a lap apart.

* `Ring.slot cap p`: the slot of position `p`; `slot_ne`: less than a lap apart.
* `Ring.Holds full free arr b l`: from position `b` on, the slots of `arr` hold the items of `l`, and
  all other slots are free. What a slot looks like when it holds an item, and when it is free, is
  given by `full` and `free`.
* `Holds.pushTop`, `Holds.popTop`, `Holds.pushBottom`, `Holds.popBottom`: the four operations, each
  on the one slot that it writes; `Holds.replace`: an item changes in place; `Holds.dropBottom`:
  several slots at the bottom are freed.
-/

namespace AsyncLib

namespace Ring

variable {cap : Nat} [NeZero cap]

/-- The slot of position `p`. -/
def slot (cap : Nat) [NeZero cap] (p : Int) : Fin cap :=
  ⟨(p % cap).toNat, by
    have hc : (0 : Int) < cap := by exact_mod_cast Nat.pos_of_neZero cap
    have h1 := Int.emod_nonneg p (ne_of_gt hc)
    have h2 := Int.emod_lt_of_pos p hc
    omega⟩

theorem slot_eq_iff {p p' : Int} : slot cap p = slot cap p' ↔ p % cap = p' % cap := by
  have hc : (0 : Int) < cap := by exact_mod_cast Nat.pos_of_neZero cap
  have h1 := Int.emod_nonneg p (ne_of_gt hc)
  have h2 := Int.emod_nonneg p' (ne_of_gt hc)
  rw [Fin.ext_iff]
  show (p % cap).toNat = (p' % cap).toNat ↔ _
  omega

/-- Positions a lap apart share their slot. -/
theorem slot_lap (p : Int) : slot cap (p + cap) = slot cap p := by
  rw [slot_eq_iff, Int.add_emod_right]

/-- Two positions less than a lap apart have different slots. -/
theorem slot_ne {p p' : Int} (h : p ≠ p') (h1 : p < p' + cap) (h2 : p' < p + cap) :
    slot cap p ≠ slot cap p' := by
  rw [Ne, slot_eq_iff]
  intro he
  obtain ⟨k, hk⟩ := Int.dvd_of_emod_eq_zero (Int.emod_eq_emod_iff_emod_sub_eq_zero.mp he)
  -- the difference is less than one lap, so it is no lap at all
  rcases lt_trichotomy k 0 with hk0 | hk0 | hk0
  · have := Int.mul_le_mul_of_nonneg_left (show k ≤ -1 by omega) (Int.natCast_nonneg cap)
    omega
  · subst hk0
    omega
  · have := Int.mul_le_mul_of_nonneg_left (show 1 ≤ k by omega) (Int.natCast_nonneg cap)
    omega

/-- Every slot is the slot of a position of a given lap. -/
theorem exists_slot (b : Int) (i : Fin cap) : ∃ p, b ≤ p ∧ p < b + cap ∧ slot cap p = i := by
  have hc : (0 : Int) < cap := by exact_mod_cast Nat.pos_of_neZero cap
  have h1 := Int.emod_nonneg ((i : Int) - b) (ne_of_gt hc)
  have h2 := Int.emod_lt_of_pos ((i : Int) - b) hc
  refine ⟨b + ((i : Int) - b) % cap, by omega, by omega, ?_⟩
  have hi : (i : Int) % cap = i := Int.emod_eq_of_lt (by omega) (by exact_mod_cast i.isLt)
  rw [Fin.ext_iff]
  show ((b + ((i : Int) - b) % cap) % cap).toNat = i
  rw [Int.add_emod, Int.emod_emod_of_dvd _ (Int.dvd_refl _), ← Int.add_emod]
  rw [show b + ((i : Int) - b) = i by omega, hi]
  rfl

variable {τ ε : Type} {full : τ → ε → Prop} {free : ε → Prop} {arr : Fin cap → ε} {b : Int}
  {l : List τ}

/-- The slots of `arr` hold the list `l` from position `b` on, and nothing else. -/
structure Holds (full : τ → ε → Prop) (free : ε → Prop) (arr : Fin cap → ε) (b : Int)
    (l : List τ) : Prop where
  le : l.length ≤ cap
  full : ∀ i (h : i < l.length), full l[i] (arr (slot cap (b + i)))
  free : ∀ p, b + l.length ≤ p → p < b + cap → free (arr (slot cap p))

/-- A ring of free slots holds the empty list. -/
theorem holds_nil (h : ∀ i, free (arr i)) : Holds full free arr b [] where
  le := Nat.zero_le _
  full i hi := absurd hi (Nat.not_lt_zero i)
  free _ _ _ := h _

/-- The item at the top. -/
theorem Holds.top (h : Holds full free arr b l) {x : τ} (hx : l.getLast? = some x) :
    full x (arr (slot cap (b + l.length - 1))) := by
  obtain ⟨ys, rfl⟩ := List.getLast?_eq_some_iff.mp hx
  have := h.full ys.length (by simp)
  have hp : b + ((ys ++ [x]).length : Int) - 1 = b + (ys.length : Int) := by
    rw [List.length_append, List.length_singleton]
    omega
  rw [hp]
  simpa using this

/-- The item at the bottom. -/
theorem Holds.bottom {x : τ} {xs : List τ} (h : Holds full free arr b (x :: xs)) :
    full x (arr (slot cap b)) := by
  have h0 : full x (arr (slot cap (b + (0 : Nat)))) := h.full 0 (Nat.succ_pos _)
  rwa [Int.natCast_zero, Int.add_zero] at h0

/-- The slot above the top one of a list that does not fill the ring. -/
theorem Holds.above_free (h : Holds full free arr b l) (hl : l.length ≠ cap) :
    free (arr (slot cap (b + l.length))) := by
  have := h.le
  exact h.free _ (Int.le_refl _) (by omega)

/-- The slot above the top one of a list that fills the ring is that of the bottom one. -/
theorem Holds.above_full (h : Holds full free arr b l) (hl : l.length = cap) :
    ∃ x, full x (arr (slot cap (b + l.length))) := by
  have hc := Nat.pos_of_neZero cap
  have h0 := h.full 0 (by omega)
  have hp : slot cap (b + l.length) = slot cap (b + (0 : Nat)) := by
    rw [show b + (l.length : Int) = b + (0 : Nat) + cap by omega, slot_lap]
  exact ⟨_, hp ▸ h0⟩

/-- The slot below the bottom one of a list that does not fill the ring. -/
theorem Holds.below_free (h : Holds full free arr b l) (hl : l.length ≠ cap) :
    free (arr (slot cap (b - 1))) := by
  have := h.le
  rw [← slot_lap]
  exact h.free _ (by omega) (by omega)

/-- The slot below the bottom one of a list that fills the ring is that of the top one. -/
theorem Holds.below_full (h : Holds full free arr b l) (hl : l.length = cap) :
    ∃ x, full x (arr (slot cap (b - 1))) := by
  have hc := Nat.pos_of_neZero cap
  refine ⟨l[l.length - 1], ?_⟩
  have := h.full (l.length - 1) (by omega)
  rw [← slot_lap]
  rwa [show b - 1 + (cap : Int) = b + ((l.length - 1 : Nat) : Int) by omega]

theorem Holds.pushTop (h : Holds full free arr b l) (hl : l.length < cap) {x : τ} {e : ε}
    (he : full x e) :
    Holds full free (Function.update arr (slot cap (b + l.length)) e) b (l ++ [x]) where
  le := by rw [List.length_append, List.length_singleton]; omega
  full i hi := by
    rw [List.length_append, List.length_singleton] at hi
    by_cases hlast : i = l.length
    · subst hlast
      simpa using he
    · have hi' : i < l.length := by omega
      rw [Function.update_of_ne (slot_ne (by omega) (by omega) (by omega)),
        List.getElem_append_left hi']
      exact h.full i hi'
  free p h1 h2 := by
    rw [List.length_append, List.length_singleton] at h1
    rw [Function.update_of_ne (slot_ne (by omega) (by omega) (by omega))]
    exact h.free p (by omega) h2

theorem Holds.popTop {x : τ} (h : Holds full free arr b (l ++ [x])) {e : ε} (he : free e) :
    Holds full free (Function.update arr (slot cap (b + l.length)) e) b l where
  le := by have := h.le; rw [List.length_append, List.length_singleton] at this; omega
  full i hi := by
    have hle := h.le
    rw [List.length_append, List.length_singleton] at hle
    rw [Function.update_of_ne (slot_ne (by omega) (by omega) (by omega))]
    have := h.full i (by rw [List.length_append, List.length_singleton]; omega)
    rwa [List.getElem_append_left hi] at this
  free p h1 h2 := by
    by_cases hnew : p = b + l.length
    · rw [hnew, Function.update_self]
      exact he
    · have hle := h.le
      rw [List.length_append, List.length_singleton] at hle
      rw [Function.update_of_ne (slot_ne hnew (by omega) (by omega))]
      exact h.free p (by rw [List.length_append, List.length_singleton]; omega) h2

theorem Holds.pushBottom (h : Holds full free arr b l) (hl : l.length < cap) {x : τ} {e : ε}
    (he : full x e) :
    Holds full free (Function.update arr (slot cap (b - 1)) e) (b - 1) (x :: l) where
  le := hl
  full i hi := by
    rw [List.length_cons] at hi
    cases i with
    | zero => simpa using he
    | succ i =>
      have hp : b - 1 + ((i + 1 : Nat) : Int) = b + i := by omega
      rw [hp, Function.update_of_ne (slot_ne (by omega) (by omega) (by omega)),
        List.getElem_cons_succ]
      exact h.full i (by omega)
  free p h1 h2 := by
    rw [List.length_cons] at h1
    rw [Function.update_of_ne (slot_ne (by omega) (by omega) (by omega))]
    exact h.free p (by omega) (by omega)

theorem Holds.popBottom {x : τ} (h : Holds full free arr b (x :: l)) {e : ε} (he : free e) :
    Holds full free (Function.update arr (slot cap b) e) (b + 1) l where
  le := by have := h.le; rw [List.length_cons] at this; omega
  full i hi := by
    have hle := h.le
    rw [List.length_cons] at hle
    rw [Function.update_of_ne (slot_ne (by omega) (by omega) (by omega))]
    have := h.full (i + 1) (by rw [List.length_cons]; omega)
    rw [List.getElem_cons_succ] at this
    rwa [show b + 1 + (i : Int) = b + ((i + 1 : Nat) : Int) by omega]
  free p h1 h2 := by
    by_cases hnew : p = b + cap
    · -- the slot just freed is the top slot of the next lap
      rw [hnew, slot_lap, Function.update_self]
      exact he
    · rw [Function.update_of_ne (slot_ne (by omega) (by omega) (by omega))]
      exact h.free p (by rw [List.length_cons]; omega) (by omega)

/-- The item after `l₁`. -/
theorem Holds.item {x : τ} {l₁ l₂ : List τ} (h : Holds full free arr b (l₁ ++ x :: l₂)) :
    full x (arr (slot cap (b + l₁.length))) := by
  have := h.full l₁.length (by simp)
  simpa using this

/-- The item after `l₁` is replaced. -/
theorem Holds.replace {x y : τ} {l₁ l₂ : List τ} (h : Holds full free arr b (l₁ ++ x :: l₂)) {e : ε}
    (he : full y e) :
    Holds full free (Function.update arr (slot cap (b + l₁.length)) e) b (l₁ ++ y :: l₂) where
  le := by simpa using h.le
  full i hi := by
    have hi' : i < (l₁ ++ x :: l₂).length := by simpa using hi
    have hle := h.le
    by_cases hx : i = l₁.length
    · subst hx
      simpa using he
    · rw [Function.update_of_ne (slot_ne (by omega) (by simp at *; omega) (by simp at *; omega))]
      have := h.full i hi'
      rcases Nat.lt_or_gt_of_ne hx with hlt | hgt
      · rw [List.getElem_append_left hlt] at this ⊢
        exact this
      · obtain ⟨j, rfl⟩ : ∃ j, i = l₁.length + (j + 1) := ⟨i - l₁.length - 1, by omega⟩
        simpa using this
  free p h1 h2 := by
    have hle := h.le
    simp only [List.length_append, List.length_cons] at h1 hle
    rw [Function.update_of_ne (slot_ne (by omega) (by omega) (by omega))]
    exact h.free p (by simp only [List.length_append, List.length_cons]; omega) h2

/-- The lower `k` slots are freed, the others keep what they have. -/
theorem Holds.dropBottom (h : Holds full free arr b l) {arr' : Fin cap → ε} {k : Nat}
    (hk : k ≤ l.length) (hfree : ∀ p, b ≤ p → p < b + k → free (arr' (slot cap p)))
    (hrest : ∀ p, b + k ≤ p → p < b + cap → arr' (slot cap p) = arr (slot cap p)) :
    Holds full free arr' (b + k) (l.drop k) where
  le := by
    have := h.le
    rw [List.length_drop]
    omega
  full i hi := by
    have hle := h.le
    rw [List.length_drop] at hi
    rw [hrest _ (by omega) (by omega), List.getElem_drop,
      show b + (k : Int) + (i : Int) = b + ((k + i : Nat) : Int) by omega]
    exact h.full (k + i) (by omega)
  free p h1 h2 := by
    rw [List.length_drop] at h1
    by_cases hlap : p < b + cap
    · rw [hrest p (by omega) hlap]
      exact h.free p (by omega) hlap
    · rw [← Int.sub_add_cancel p cap, slot_lap]
      exact hfree _ (by omega) (by omega)

end Ring

end AsyncLib
