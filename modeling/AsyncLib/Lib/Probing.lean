import AsyncLib.Lib.Stride
import Mathlib.Data.Fintype.EquivFin

/-!
# Linear probing

A table of slots, each empty or with an item, from which nothing is taken out. A search goes from its
first slot around the table, one slot after the other, up to an empty slot.

* `probe n a d`: the slot `d` places after `a` in a table of `n` slots; `nextSlot`: the next one.
* `Filled`: the first slots of a search are filled. `Placed`: a search reaches a slot.
* `Extends`: empty slots have been filled, which keeps both.
* `Placed.passed`: a search that has come to an empty slot has passed every slot that it reaches.
  `Placed.trans`: a slot that is reached from the end of a search is reached by the search.
* `exists_empty`: the items are below the number of the slots, and one of them has no slot.
-/

namespace AsyncLib

namespace Probing

/-- The slot `d` places after `a`. -/
abbrev probe (n a d : Nat) : Nat := stride n a 1 d

/-- The next slot, as a loop computes it. -/
def nextSlot (n i : Nat) : Nat := if n ≤ i + 1 then i + 1 - n else i + 1

section Circle

variable {n a d e j : Nat}

theorem probe_zero (ha : a < n) : probe n a 0 = a := Nat.mod_eq_of_lt ha

theorem probe_probe : probe n (probe n a d) e = probe n a (d + e) := by
  show ((a + d * 1) % n + e * 1) % n = (a + (d + e) * 1) % n
  rw [Nat.mod_add_mod, Nat.mul_one, Nat.mul_one, Nat.mul_one, Nat.add_assoc]

theorem probe_add_self : probe n a (n + d) = probe n a d := by
  show (a + (n + d) * 1) % n = (a + d * 1) % n
  rw [Nat.mul_one, Nat.mul_one, Nat.add_left_comm, Nat.add_mod_left]

theorem probe_inj (hd : d < n) (he : e < n) (h : probe n a d = probe n a e) : d = e :=
  stride_inj (Nat.coprime_one_left n) hd he h

theorem exists_probe (a : Nat) (hj : j < n) : ∃ d < n, probe n a d = j := by
  have hperm : ((List.range n).map (probe n a)).Perm (List.range n) :=
    stride_perm (Nat.zero_lt_of_lt hj) (Nat.coprime_one_left n)
  obtain ⟨d, hd, he⟩ := List.mem_map.mp (hperm.mem_iff.mpr (List.mem_range.mpr hj))
  exact ⟨d, List.mem_range.mp hd, he⟩

theorem nextSlot_probe (hn : 0 < n) : nextSlot n (probe n a d) = probe n a (d + 1) := by
  have hlt : stride n a 1 d < n := stride_lt hn d
  rw [probe, probe, stride_succ, nextSlot]
  split
  · have he : stride n a 1 d + 1 = n := by omega
    rw [he, Nat.sub_self, Nat.mod_self]
  · rw [Nat.mod_eq_of_lt (by omega)]

/-- The walk is back at its start. -/
theorem nextSlot_eq_iff (ha : a < n) (hd : d < n) : nextSlot n (probe n a d) = a ↔ d + 1 = n := by
  have hn : 0 < n := Nat.zero_lt_of_lt ha
  rw [nextSlot_probe hn]
  constructor
  · intro h
    by_contra hne
    have := probe_inj (by omega) hn (h.trans (probe_zero ha).symm)
    omega
  · intro h
    rw [h]
    exact probe_add_self.trans (probe_zero ha)

end Circle

section Slots

variable {ι : Type} {slots slots' : List (Option ι)} {a d e j : Nat}

/-- The `d` slots from `a` on are filled. -/
def Filled (slots : List (Option ι)) (a d : Nat) : Prop :=
  ∀ k < d, ∃ p, slots[probe slots.length a k]? = some (some p)

/-- A search from `a` reaches the slot `j`. -/
def Placed (slots : List (Option ι)) (a j : Nat) : Prop :=
  ∃ d < slots.length, probe slots.length a d = j ∧ Filled slots a d

/-- Empty slots have been filled. -/
structure Extends (slots slots' : List (Option ι)) : Prop where
  length : slots'.length = slots.length
  keep : ∀ (j : Nat) p, slots[j]? = some (some p) → slots'[j]? = some (some p)

theorem Extends.refl (slots : List (Option ι)) : Extends slots slots := ⟨rfl, fun _ _ => id⟩

theorem extends_set (hj : slots[j]? = some none) (p : ι) : Extends slots (slots.set j (some p)) where
  length := List.length_set
  keep k q hk := by
    have hne : j ≠ k := by
      rintro rfl
      cases hj.symm.trans hk
    rwa [List.getElem?_set_ne hne]

theorem filled_zero (slots : List (Option ι)) (a : Nat) : Filled slots a 0 :=
  fun _ hk => absurd hk (Nat.not_lt_zero _)

theorem Filled.succ {p : ι} (h : Filled slots a d)
    (hp : slots[probe slots.length a d]? = some (some p)) : Filled slots a (d + 1) := by
  intro k hk
  rcases Nat.lt_succ_iff_lt_or_eq.mp hk with hk | rfl
  · exact h k hk
  · exact ⟨p, hp⟩

theorem Filled.extend (h : Filled slots a d) (he : Extends slots slots') : Filled slots' a d := by
  intro k hk
  obtain ⟨p, hp⟩ := h k hk
  rw [he.length]
  exact ⟨p, he.keep _ p hp⟩

theorem Placed.extend (h : Placed slots a j) (he : Extends slots slots') : Placed slots' a j := by
  obtain ⟨d, hd, hj, hf⟩ := h
  exact ⟨d, he.length ▸ hd, he.length ▸ hj, hf.extend he⟩

/-- After a full circle every slot is filled. -/
theorem Filled.all (h : Filled slots a slots.length) (hj : j < slots.length) :
    ∃ p, slots[j]? = some (some p) := by
  obtain ⟨d, hd, rfl⟩ := exists_probe a hj
  exact h d hd

theorem Placed.self (ha : a < slots.length) : Placed slots a a :=
  ⟨0, Nat.zero_lt_of_lt ha, probe_zero ha, filled_zero slots a⟩

theorem Placed.lt (h : Placed slots a j) : j < slots.length := by
  obtain ⟨d, hd, rfl, -⟩ := h
  exact stride_lt (Nat.zero_lt_of_lt hd) d

/-- The search from `a` goes on from where it stopped, maybe around the table. -/
theorem Placed.trans {i : Nat} (h : Placed slots a i) (h' : Placed slots i j) : Placed slots a j := by
  obtain ⟨d, hd, rfl, hf⟩ := h
  obtain ⟨e, he, rfl, hf'⟩ := h'
  rw [probe_probe]
  by_cases hlt : d + e < slots.length
  · refine ⟨d + e, hlt, rfl, fun k hk => ?_⟩
    by_cases hkd : k < d
    · exact hf k hkd
    · obtain ⟨p, hp⟩ := hf' (k - d) (by omega)
      rw [probe_probe, Nat.add_sub_cancel' (by omega)] at hp
      exact ⟨p, hp⟩
  · have hwrap : d + e = slots.length + (d + e - slots.length) := by omega
    rw [hwrap, probe_add_self]
    exact ⟨_, by omega, rfl, fun k hk => hf k (by omega)⟩

/-- The next slot, after one that is filled and if the walk is not back at its start. -/
theorem Placed.next {p : ι} (h : Placed slots a j) (hj : slots[j]? = some (some p))
    (hne : nextSlot slots.length j ≠ a) (ha : a < slots.length) :
    Placed slots a (nextSlot slots.length j) := by
  obtain ⟨d, hd, rfl, hf⟩ := h
  have hback : ¬ d + 1 = slots.length := fun h => hne ((nextSlot_eq_iff ha hd).mpr h)
  exact ⟨d + 1, by omega, (nextSlot_probe (Nat.zero_lt_of_lt hd)).symm, hf.succ hj⟩

/-- The walk is back at its start: every slot is filled. -/
theorem Placed.all {p : ι} (h : Placed slots a j) (hj : slots[j]? = some (some p))
    (he : nextSlot slots.length j = a) (ha : a < slots.length) {k : Nat} (hk : k < slots.length) :
    ∃ q, slots[k]? = some (some q) := by
  obtain ⟨d, hd, rfl, hf⟩ := h
  have hall : d + 1 = slots.length := (nextSlot_eq_iff ha hd).mp he
  exact Filled.all (hall ▸ hf.succ hj) hk

/-- A slot that the search reaches was passed before the empty slot where the search is. -/
theorem Placed.passed {p : ι} (h : Placed slots a j) (hj : slots[j]? = some (some p))
    (hd : slots[probe slots.length a d]? = some none) : ∃ k < d, probe slots.length a k = j := by
  obtain ⟨k, hk, rfl, hf⟩ := h
  refine ⟨k, ?_, rfl⟩
  by_contra hle
  rcases Nat.lt_or_eq_of_le (not_lt.mp hle) with hlt | rfl
  · obtain ⟨q, hq⟩ := hf d hlt
    cases hd.symm.trans hq
  · cases hd.symm.trans hj

end Slots

/-- If the items are below the number of the slots and one of them has no slot, a slot is empty. -/
theorem exists_empty {slots : List (Option Nat)} {i : Nat}
    (hinj : ∀ (j k p : Nat), slots[j]? = some (some p) → slots[k]? = some (some p) → j = k)
    (hlt : ∀ (j p : Nat), slots[j]? = some (some p) → p < slots.length) (hi : i < slots.length)
    (hnot : ∀ j : Nat, slots[j]? ≠ some (some i)) : ∃ j : Nat, slots[j]? = some none := by
  by_contra hfull
  have hitem : ∀ j : Fin slots.length, ∃ p, slots[(j : Nat)]? = some (some p) := by
    intro j
    cases hj : slots[(j : Nat)] with
    | none => exact absurd ⟨j, hj ▸ List.getElem?_eq_getElem j.isLt⟩ hfull
    | some p => exact ⟨p, hj ▸ List.getElem?_eq_getElem j.isLt⟩
  choose item hitem using hitem
  let f : Fin slots.length → Fin slots.length := fun j => ⟨item j, hlt j _ (hitem j)⟩
  have hf : Function.Injective f := by
    intro j k hjk
    have he : item j = item k := congrArg Fin.val hjk
    exact Fin.ext (hinj j k (item j) (hitem j) (he ▸ hitem k))
  obtain ⟨j, hj⟩ := Finite.surjective_of_injective hf ⟨i, hi⟩
  have he : item j = i := congrArg Fin.val hj
  exact hnot j (he ▸ hitem j)

end Probing

end AsyncLib
