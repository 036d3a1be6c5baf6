import Mathlib.Data.List.Infix
import Mathlib.Data.List.Basic
import Mathlib.Algebra.GroupWithZero.Nat
import Mathlib.Algebra.Group.Int.Defs

/-!
# Splitting at a separator

The pieces of a list between the leftmost matches of a separator `d`, from left to right and without
overlap, and the variant in which an empty last piece is omitted.

* `pieces d k l`: `k` is the number of items of the current match that are still to be passed.
* `pieces_of_not_infix`, `pieces_singleton_append`: how a list without a match, and one whose first
  match is known, are split.
* `not_infix_of_mem_pieces`, `mem_of_mem_pieces`: what no piece contains.
* `dropEmptyLast`: an empty last piece is omitted.
-/

namespace AsyncLib

namespace Split

variable {α : Type} [DecidableEq α]

/-- The pieces of a list between the matches of `d`, after `k` items that belong to a match. -/
def pieces (d : List α) : Nat → List α → List (List α)
  | _, [] => [[]]
  | k + 1, _ :: l => pieces d k l
  | 0, c :: l =>
    if d <+: c :: l then [] :: pieces d (d.length - 1) l else (pieces d 0 l).modifyHead (c :: ·)

/-- The pieces, without the last if it is empty. -/
def dropEmptyLast (ps : List (List α)) : List (List α) :=
  if ps.getLast? = some [] then ps.dropLast else ps

variable {d l p : List α} {k : Nat}

theorem pieces_ne_nil : pieces d k l ≠ [] := by
  induction l generalizing k with
  | nil => simp [pieces]
  | cons c l ih =>
    cases k with
    | succ k => exact ih
    | zero =>
      unfold pieces
      split
      · exact List.cons_ne_nil _ _
      · intro h
        have := congrArg List.length h
        rw [List.length_modifyHead] at this
        exact ih (List.eq_nil_of_length_eq_zero this)

/-- A list without a match is one piece. -/
theorem pieces_of_not_infix (h : ¬ d <:+: l) : pieces d 0 l = [l] := by
  induction l with
  | nil => rfl
  | cons c l ih =>
    unfold pieces
    rw [if_neg fun hp => h hp.isInfix, ih fun hi => h (hi.trans (List.suffix_cons c l).isInfix)]
    rfl

/-- A single item as separator, first met after `l`. -/
theorem pieces_singleton_append {x : α} (h : x ∉ l) (r : List α) :
    pieces [x] 0 (l ++ x :: r) = l :: pieces [x] 0 r := by
  induction l with
  | nil => simp [pieces]
  | cons c l ih =>
    have hne : x ≠ c := fun he => h (he ▸ List.mem_cons_self)
    rw [List.cons_append, pieces, if_neg, ih fun hx => h (List.mem_cons_of_mem _ hx)]
    · rfl
    · simpa using hne

/-- A piece holds only items of the list. -/
theorem mem_of_mem_pieces (hp : p ∈ pieces d k l) {c : α} (hc : c ∈ p) : c ∈ l := by
  induction l generalizing k p with
  | nil =>
    cases k <;> simp [pieces] at hp <;> simp [hp] at hc
  | cons a l ih =>
    cases k with
    | succ k => exact List.mem_cons_of_mem _ (ih hp hc)
    | zero =>
      unfold pieces at hp
      split at hp
      · rcases List.mem_cons.mp hp with rfl | hp
        · cases hc
        · exact List.mem_cons_of_mem _ (ih hp hc)
      · cases hx : pieces d 0 l with
        | nil => exact absurd hx pieces_ne_nil
        | cons q qs =>
          rw [hx, List.modifyHead_cons] at hp
          rcases List.mem_cons.mp hp with rfl | hp
          · rcases List.mem_cons.mp hc with rfl | hc
            · exact List.mem_cons_self
            · exact List.mem_cons_of_mem _ (ih (hx ▸ List.mem_cons_self) hc)
          · exact List.mem_cons_of_mem _ (ih (hx ▸ List.mem_cons_of_mem _ hp) hc)

/-- The list begins with its first piece. -/
theorem prefix_of_pieces {ps : List (List α)} (h : pieces d 0 l = p :: ps) : p <+: l := by
  induction l generalizing p ps with
  | nil =>
    cases h
    exact List.nil_prefix
  | cons c l ih =>
    unfold pieces at h
    split at h
    · cases h
      exact List.nil_prefix
    · cases hx : pieces d 0 l with
      | nil => exact absurd hx pieces_ne_nil
      | cons q qs =>
        rw [hx, List.modifyHead_cons] at h
        cases h
        exact List.cons_prefix_cons.mpr ⟨rfl, ih hx⟩

/-- No piece holds a match. -/
theorem not_infix_of_mem_pieces (hd : d ≠ []) (hp : p ∈ pieces d k l) : ¬ d <:+: p := by
  have hnil : ¬ d <:+: [] := fun h => hd (List.eq_nil_of_infix_nil h)
  induction l generalizing k p with
  | nil =>
    have : p = [] := by cases k <;> simpa [pieces] using hp
    rw [this]
    exact hnil
  | cons c l ih =>
    cases k with
    | succ k => exact ih hp
    | zero =>
      unfold pieces at hp
      split at hp
      · rcases List.mem_cons.mp hp with rfl | hp
        · exact hnil
        · exact ih hp
      · rename_i hpre
        cases hx : pieces d 0 l with
        | nil => exact absurd hx pieces_ne_nil
        | cons q qs =>
          rw [hx, List.modifyHead_cons] at hp
          rcases List.mem_cons.mp hp with rfl | hp
          · intro hi
            rcases List.infix_cons_iff.mp hi with h | h
            · exact hpre (h.trans (List.cons_prefix_cons.mpr ⟨rfl, prefix_of_pieces hx⟩))
            · exact ih (hx ▸ List.mem_cons_self) h
          · exact ih (hx ▸ List.mem_cons_of_mem _ hp)

theorem dropEmptyLast_cons {ps : List (List α)} (h : ps ≠ []) :
    dropEmptyLast (p :: ps) = p :: dropEmptyLast ps := by
  unfold dropEmptyLast
  rw [List.getLast?_cons, List.getLast?_eq_some_getLast h, Option.getD_some,
    List.dropLast_cons_of_ne_nil h]
  split <;> rfl

theorem mem_of_mem_dropEmptyLast {ps : List (List α)} (h : p ∈ dropEmptyLast ps) : p ∈ ps := by
  unfold dropEmptyLast at h
  split at h
  · exact List.mem_of_mem_dropLast h
  · exact h

end Split

end AsyncLib
