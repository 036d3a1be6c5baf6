import AsyncLib.Lib.Count
import Mathlib.Algebra.BigOperators.Group.List.Basic

/-!
# One entry of a list is modified

A list of the states of threads, of which one step modifies the entry of one thread.

* `Each P l`: every entry has `P`, which may depend on its position. `Each.modify`, `Each.append`: after
  a step of one thread, and with new threads.
* `exists_set`, `exists_of_set`: an entry with `P`, before and after one is replaced.
* `Below n P l`: one of the first `n` entries has `P`.
* `elim_set`: a function of the entries, after one is replaced.
* `weight_eq_zero`: an entry with the whole sum of the weights.
* `countP_modify`, `sum_modify`: a count and a sum of weights change by the difference at that entry.
-/

namespace AsyncLib

variable {α : Type} {l : List α} {t : Nat} {x : α}

/-- Every entry has `P`, at its position. -/
def Each (P : Nat → α → Prop) (l : List α) : Prop := ∀ t x, l[t]? = some x → P t x

namespace Each

variable {P Q : Nat → α → Prop}

theorem mono (h : Each P l) (hpq : ∀ t x, l[t]? = some x → P t x → Q t x) : Each Q l :=
  fun t x ht => hpq t x ht (h t x ht)

/-- The entry `t` is modified, and the others have `Q` as well. -/
theorem modify_of (h : Each P l) {f : α → α} (hf : ∀ x, l[t]? = some x → Q t (f x))
    (hne : ∀ u x, u ≠ t → l[u]? = some x → P u x → Q u x) : Each Q (l.modify t f) := by
  intro u y hu
  by_cases hut : u = t
  · subst hut
    rw [List.getElem?_modify_eq] at hu
    obtain ⟨x, hx, rfl⟩ := Option.map_eq_some_iff.mp hu
    exact hf x hx
  · rw [List.getElem?_modify_ne _ _ (Ne.symm hut)] at hu
    exact hne u y hut hu (h u y hu)

theorem modify (h : Each P l) {f : α → α} (hf : ∀ x, l[t]? = some x → P t (f x)) :
    Each P (l.modify t f) := h.modify_of hf fun _ _ _ _ => id

/-- The entry `t` is replaced. -/
theorem set (h : Each P l) {y : α} (hy : t < l.length → P t y) : Each P (l.set t y) := by
  intro u x hu
  rcases Nat.decEq t u with hne | rfl
  · rw [List.getElem?_set_ne hne] at hu
    exact h u x hu
  · rw [List.getElem?_set_self'] at hu
    obtain ⟨x', hx', rfl⟩ := Option.map_eq_some_iff.mp hu
    exact hy (List.getElem?_eq_some_iff.mp hx').1

theorem append (h : Each P l) {new : List α} (hnew : ∀ i x, new[i]? = some x → P (l.length + i) x) :
    Each P (l ++ new) := by
  intro t x ht
  by_cases hlt : t < l.length
  · rw [List.getElem?_append_left hlt] at ht
    exact h t x ht
  · rw [List.getElem?_append_right (by omega)] at ht
    have := hnew _ x ht
    rwa [Nat.add_sub_cancel' (by omega)] at this

end Each

section Exists

variable {P : α → Prop} {y : α}

theorem exists_set_self (h : l[t]? = some x) (hy : P y) : ∃ z ∈ l.set t y, P z :=
  ⟨y, List.mem_set (List.getElem?_eq_some_iff.mp h).1 y, hy⟩

/-- An entry with `P` is still there, or it is the one that was replaced. -/
theorem exists_set (h : l[t]? = some x) (hP : ∃ z ∈ l, P z) : (∃ z ∈ l.set t y, P z) ∨ P x := by
  obtain ⟨z, hz, hPz⟩ := hP
  obtain ⟨u, hu⟩ := List.mem_iff_getElem?.mp hz
  by_cases hut : u = t
  · subst hut
    exact .inr (Option.some.inj (hu.symm.trans h) ▸ hPz)
  · refine .inl ⟨z, List.mem_iff_getElem?.mpr ⟨u, ?_⟩, hPz⟩
    rwa [List.getElem?_set_ne (Ne.symm hut)]

theorem exists_of_set (hP : ∃ z ∈ l.set t y, P z) : (∃ z ∈ l, P z) ∨ P y := by
  obtain ⟨z, hz, hPz⟩ := hP
  rcases List.mem_or_eq_of_mem_set hz with hz | rfl
  · exact .inl ⟨z, hz, hPz⟩
  · exact .inr hPz

end Exists

section Below

variable {P : α → Prop} {y : α} {n : Nat}

/-- One of the first `n` entries has `P`. -/
def Below (n : Nat) (P : α → Prop) (l : List α) : Prop := ∃ u < n, ∃ x, l[u]? = some x ∧ P x

theorem Below.self (ht : t < n) (h : l[t]? = some x) (hy : P y) : Below n P (l.set t y) :=
  ⟨t, ht, y, List.getElem?_set_self (List.getElem?_eq_some_iff.mp h).1, hy⟩

/-- The entry that is replaced keeps `P`. -/
theorem Below.set (h : Below n P l) (ht : l[t]? = some x) (hxy : P x → P y) :
    Below n P (l.set t y) := by
  obtain ⟨u, hu, z, hz, hP⟩ := h
  by_cases hut : u = t
  · subst hut
    exact .self hu ht (hxy (Option.some.inj (hz.symm.trans ht) ▸ hP))
  · exact ⟨u, hu, z, by rwa [List.getElem?_set_ne (Ne.symm hut)], hP⟩

end Below

/-- What a function says about an entry, after the entry `t` was replaced. -/
theorem elim_set {β : Type} {d : β} {f : α → β} {y : α} (h : l[t]? = some x) :
    (fun u => ((l.set t y)[u]?).elim d f) = Function.update (fun u => (l[u]?).elim d f) t (f y) := by
  funext u
  by_cases hut : u = t
  · subst hut
    rw [Function.update_self, List.getElem?_set_self (List.getElem?_eq_some_iff.mp h).1]
    rfl
  · rw [Function.update_of_ne hut, List.getElem?_set_ne (Ne.symm hut)]

theorem modify_eq_set_of {f : α → α} (h : l[t]? = some x) : l.modify t f = l.set t (f x) := by
  refine List.ext_getElem? fun u => ?_
  rw [List.getElem?_modify, List.getElem?_set]
  by_cases hut : t = u
  · subst hut
    obtain ⟨hlt, hx⟩ := List.getElem?_eq_some_iff.mp h
    simp [hlt, hx]
  · simp [hut]

theorem countP_modify {p : α → Bool} {f : α → α} (h : l[t]? = some x) :
    (l.modify t f).countP p + (p x).toNat = l.countP p + (p (f x)).toNat := by
  rw [modify_eq_set_of h]
  exact countP_set_add h

/-- Weights are added up. -/
theorem sum_modify {w : α → Nat} {f : α → α} (h : l[t]? = some x) :
    ((l.modify t f).map w).sum + w x = (l.map w).sum + w (f x) := by
  induction l generalizing t with
  | nil => cases h
  | cons y l ih =>
    cases t with
    | zero =>
      cases h
      simp only [List.modify_zero_cons, List.map_cons, List.sum_cons]
      omega
    | succ t =>
      have := ih h
      simp only [List.modify_succ_cons, List.map_cons, List.sum_cons]
      omega

/-- The same where the entry is replaced. -/
theorem sum_set {w : α → Nat} {y : α} (h : l[t]? = some x) :
    ((l.set t y).map w).sum + w x = (l.map w).sum + w y := by
  have hset : l.modify t (fun _ => y) = l.set t y := modify_eq_set_of h
  rw [← hset]
  exact sum_modify h

/-- If one entry has the whole sum of the weights, the others have none. -/
theorem weight_eq_zero {w : α → Nat} (h : l[t]? = some x) (hsum : (l.map w).sum ≤ w x) {u : Nat}
    {y : α} (hu : l[u]? = some y) (hut : u ≠ t) : w y = 0 := by
  have hx : (l.map w)[t]? = some (w x) := by rw [List.getElem?_map, h, Option.map_some]
  have hset := sum_set (w := id) (y := 0) hx
  rw [List.map_id, List.map_id, id, id, Nat.add_zero] at hset
  have hzero : ((l.map w).set t 0).sum = 0 := by omega
  refine List.sum_eq_zero_iff_forall_eq_nat.mp hzero _ (List.mem_of_getElem? (i := u) ?_)
  rw [List.getElem?_set_ne (Ne.symm hut), List.getElem?_map, hu, Option.map_some]

end AsyncLib
