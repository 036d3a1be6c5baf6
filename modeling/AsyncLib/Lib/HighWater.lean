import Mathlib.Order.Lattice
import Mathlib.Order.Defs.LinearOrder
import Mathlib.Algebra.GroupWithZero.Nat
import Mathlib.Algebra.Group.Int.Defs

/-!
# High-water marks

A value `cur` goes up and down, and `peak` is the largest one it has had. A `mark` for it is kept by
parties that read the value, some time after it was raised, and later raise the mark to what they
read. `due` says that a party is about to read; `read v` that one has read `v` and not finished.

* `Seen`: a value is not above the mark, or will not be.
* `Tracks`: the peak is seen, or it is the present value and a party is about to read. Kept when the
  value is raised by a party that reads it later (`Tracks.raise`), when it is lowered from a value
  that is seen (`Tracks.lower`), and by the reads and the updates of the mark (`Tracks.update`).
  `Tracks.settled`: with no party at work the mark is the peak.
* `Misses`: a value was not seen. This stays so as long as the present value is below it
  (`Misses.step`).
-/

namespace AsyncLib

namespace HighWater

variable {α : Type} [LinearOrder α] {cur cur' mark mark' peak peak' v : α} {due due' : Prop}
  {read read' : α → Prop}

/-- The mark is at least `v`, or a party has read a value that is. -/
def Seen (mark : α) (read : α → Prop) (v : α) : Prop := v ≤ mark ∨ ∃ w, read w ∧ v ≤ w

/-- No mark is above the peak, and the peak was marked or read, or an update of it is due. -/
structure Tracks (cur mark peak : α) (due : Prop) (read : α → Prop) : Prop where
  cur_le : cur ≤ peak
  mark_le : mark ≤ peak
  read_le : ∀ v, read v → v ≤ peak
  seen : Seen mark read peak ∨ cur = peak ∧ due

theorem Seen.mono (h : Seen mark read v) (hmark : mark ≤ mark')
    (hread : ∀ v, read v → read' v ∨ v ≤ mark') : Seen mark' read' v := by
  rcases h with h | ⟨w, hw, hvw⟩
  · exact .inl (h.trans hmark)
  · rcases hread w hw with hw | hw
    · exact .inr ⟨w, hw, hvw⟩
    · exact .inl (hvw.trans hw)

/-- The value is raised, by a party that reads it later. -/
theorem Tracks.raise (h : Tracks cur mark peak due read) (hle : cur ≤ cur') (hdue : due')
    (hread : ∀ v, read' v ↔ read v) : Tracks cur' mark (max peak cur') due' read' where
  cur_le := le_max_right ..
  mark_le := h.mark_le.trans (le_max_left ..)
  read_le v hv := (h.read_le v ((hread v).mp hv)).trans (le_max_left ..)
  seen := by
    rcases le_or_gt peak cur' with hpc | hlt
    · exact .inr ⟨(max_eq_right hpc).symm, hdue⟩
    · rw [max_eq_left hlt.le]
      rcases h.seen with hs | ⟨he, -⟩
      · exact .inl (hs.mono le_rfl fun v hv => .inl ((hread v).mpr hv))
      · exact absurd (he ▸ hle) (not_le.mpr hlt)

/-- The value is lowered from one that is seen, or it stays. -/
theorem Tracks.lower (h : Tracks cur mark peak due read) (hle : cur' ≤ cur)
    (hs : cur' = cur ∨ Seen mark read cur) (hdue : due → due') (hread : ∀ v, read' v ↔ read v) :
    Tracks cur' mark (max peak cur') due' read' := by
  rw [max_eq_left (hle.trans h.cur_le)]
  refine ⟨hle.trans h.cur_le, h.mark_le, fun v hv => h.read_le v ((hread v).mp hv), ?_⟩
  have hkeep : ∀ v, read v → read' v ∨ v ≤ mark := fun v hv => .inl ((hread v).mpr hv)
  rcases h.seen with hseen | ⟨he, hd⟩
  · exact .inl (hseen.mono le_rfl hkeep)
  · rcases hs with hs | hs
    · exact .inr ⟨hs.trans he, hdue hd⟩
    · exact .inl (he ▸ hs.mono le_rfl hkeep)

/-- A party reads the value, or raises the mark to a value it has read, or has finished. -/
theorem Tracks.update (h : Tracks cur mark peak due read) (hmark : mark ≤ mark')
    (hto : mark' = mark ∨ read mark') (hkeep : ∀ v, read v → read' v ∨ v ≤ mark')
    (hnew : ∀ v, read' v → read v ∨ v = cur) (hdue : due → due' ∨ read' cur) :
    Tracks cur mark' peak due' read' where
  cur_le := h.cur_le
  mark_le := by
    rcases hto with he | hr
    · exact he ▸ h.mark_le
    · exact h.read_le _ hr
  read_le v hv := by
    rcases hnew v hv with hv | rfl
    · exact h.read_le v hv
    · exact h.cur_le
  seen := by
    rcases h.seen with hs | ⟨he, hd⟩
    · exact .inl (hs.mono hmark hkeep)
    · rcases hdue hd with hd | hr
      · exact .inr ⟨he, hd⟩
      · exact .inl (.inr ⟨cur, hr, he.ge⟩)

/-- No party is at work. -/
theorem Tracks.settled (h : Tracks cur mark peak due read) (hdue : ¬ due) (hread : ∀ v, ¬ read v) :
    mark = peak := by
  refine h.mark_le.antisymm ?_
  rcases h.seen with (hle | ⟨w, hw, -⟩) | ⟨-, hd⟩
  · exact hle
  · exact absurd hw (hread w)
  · exact absurd hd hdue

/-- The value was `v`, and nobody saw it. -/
structure Misses (v mark peak : α) (read : α → Prop) : Prop where
  mark_lt : mark < v
  read_lt : ∀ w, read w → w < v
  le_peak : v ≤ peak

theorem Misses.mark_lt_peak (h : Misses v mark peak read) : mark < peak := h.mark_lt.trans_le h.le_peak

/-- What is not seen when the value is lowered is missed. -/
theorem misses_of_not_seen (hle : cur ≤ peak) (hs : ¬ Seen mark read cur)
    (hread : ∀ v, read' v ↔ read v) : Misses cur mark peak read' where
  mark_lt := not_le.mp fun h => hs (.inl h)
  read_lt w hw := not_le.mp fun h => hs (.inr ⟨w, (hread w).mp hw, h⟩)
  le_peak := hle

theorem Misses.step (h : Misses v mark peak read) (hcur : cur < v)
    (hto : mark' = mark ∨ read mark') (hnew : ∀ w, read' w → read w ∨ w = cur)
    (hpeak : peak ≤ peak') : Misses v mark' peak' read' where
  mark_lt := by
    rcases hto with he | hr
    · exact he ▸ h.mark_lt
    · exact h.read_lt _ hr
  read_lt w hw := by
    rcases hnew w hw with hw | rfl
    · exact h.read_lt w hw
    · exact hcur
  le_peak := h.le_peak.trans hpeak

end HighWater

end AsyncLib
