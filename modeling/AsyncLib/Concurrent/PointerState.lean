import AsyncLib.Lib.Bitfield

/-!
# `TaskPriorityDeque::PointerState`

`async/concurrent/task_priority_queue.h`. `front_` and `back_` of a `TaskPriorityDeque` are 64-bit
words: four rolling indices of 11 bits, one for each priority, and a modification counter of 20 bits
above them. `none` is a failed assertion.

* `withIndexExt_spec`, `indexExt_incWord`: a write of one index leaves the other three alone.
* `inc_eq`: the assertions of `CheckState` hold, also where the index or the counter wraps.
-/

namespace AsyncLib

/-- `TaskPriority`. -/
inductive TaskPriority where
  | kCritical
  | kHigh
  | kDefault
  | kLow
  deriving DecidableEq, Repr

namespace TaskPriority

/-- `static_cast<int>(priority)`. -/
def toNat : TaskPriority → Nat
  | kCritical => 0
  | kHigh => 1
  | kDefault => 2
  | kLow => 3

theorem toNat_lt (p : TaskPriority) : p.toNat < 4 := by cases p <;> decide

theorem toNat_inj {p p' : TaskPriority} (h : p.toNat = p'.toNat) : p = p' := by
  revert h
  cases p <;> cases p' <;> decide

end TaskPriority

/-- `uint64_t`. -/
abbrev Word64 := BitVec 64

namespace TaskPriorityDeque

open Bitfield

/-- The bits of an index. -/
def kCounterBits : Nat := 10

/-- `kCapacity = 1ull << kCounterBits`. -/
def kCapacity : Nat := 1 <<< kCounterBits

instance : NeZero kCapacity := ⟨by decide⟩

/-- The number of priorities. -/
def kNumTaskPriorities : Nat := 4

/-- `kTaskPriorities`, in the order of the enumeration. -/
def kTaskPriorities : List TaskPriority := [.kCritical, .kHigh, .kDefault, .kLow]

/-- `kIndexMask = (1ull << kCounterBits) - 1`. -/
def kIndexMask : Word64 := BitVec.ofNat 64 (2 ^ kCounterBits - 1)

/-- `kIndexMaskExt = (1ull << (kCounterBits + 1)) - 1`. -/
def kIndexMaskExt : Word64 := BitVec.ofNat 64 (2 ^ (kCounterBits + 1) - 1)

/-- Where the index of a priority begins. -/
def kIndexShift (p : TaskPriority) : Nat := (kCounterBits + 1) * p.toNat

/-- The mask of the index of a priority. -/
def kIndexMasks (p : TaskPriority) : Word64 := kIndexMask <<< kIndexShift p

/-- The mask of an index with the bit above it. -/
def kIndexMasksExt (p : TaskPriority) : Word64 := kIndexMaskExt <<< kIndexShift p

/-- The masks of the other three indices. -/
def kIndexMaskCompl : TaskPriority → Word64
  | .kCritical => kIndexMasksExt .kHigh ||| kIndexMasksExt .kDefault ||| kIndexMasksExt .kLow
  | .kHigh => kIndexMasksExt .kCritical ||| kIndexMasksExt .kDefault ||| kIndexMasksExt .kLow
  | .kDefault => kIndexMasksExt .kCritical ||| kIndexMasksExt .kHigh ||| kIndexMasksExt .kLow
  | .kLow => kIndexMasksExt .kCritical ||| kIndexMasksExt .kHigh ||| kIndexMasksExt .kDefault

/-- The bits of all indices. -/
def kIndicesBits : Nat := (kCounterBits + 1) * kNumTaskPriorities

/-- `kIndicesMask = (1ull << kIndicesBits) - 1`. -/
def kIndicesMask : Word64 := BitVec.ofNat 64 (2 ^ kIndicesBits - 1)

/-- The bits of the modification counter. -/
def kModificationCounterBits : Nat := 64 - kIndicesBits

/-- `kModificationCounterMask = (1ull << kModificationCounterBits) - 1`. -/
def kModificationCounterMask : Word64 := BitVec.ofNat 64 (2 ^ kModificationCounterBits - 1)

/-- `PointerState::Index`. -/
def index (state : Word64) (p : TaskPriority) : Word64 :=
  (state &&& kIndexMasks p) >>> kIndexShift p

/-- `PointerState::IndexExt`. -/
def indexExt (state : Word64) (p : TaskPriority) : Word64 :=
  (state &&& kIndexMasksExt p) >>> kIndexShift p

/-- `PointerState::WithIndexExt`, with its assertion. -/
def withIndexExt (state : Word64) (index : Word64) (p : TaskPriority) : Option Word64 :=
  if index &&& ~~~kIndexMaskExt = 0 then
    some ((index <<< kIndexShift p) ||| (state &&& ~~~kIndexMasksExt p))
  else none

/-- The four assertions of `PointerState::CheckState`. -/
def checkState (state : Word64) (p : TaskPriority) (inc : Word64) : Bool :=
  let prevIdx := (state &&& kIndexMasks p) >>> kIndexShift p
  let newIdx := (inc &&& kIndexMasks p) >>> kIndexShift p
  let prevCnt := (state &&& ~~~kIndicesMask) >>> kIndicesBits
  let newCnt := (inc &&& ~~~kIndicesMask) >>> kIndicesBits
  let kCntCapacity : Word64 := BitVec.ofNat 64 (2 ^ kModificationCounterBits)
  (prevIdx == BitVec.ofNat 64 (kCapacity - 1) || newIdx - prevIdx == 1) &&
  (prevIdx != BitVec.ofNat 64 (kCapacity - 1) || newIdx == 0) &&
  (prevCnt == kCntCapacity - 1 || newCnt - prevCnt == 1) &&
  (prevCnt != kCntCapacity - 1 || newCnt == 0)

/-- The word that `PointerState::Inc` computes. -/
def incWord (state : Word64) (p : TaskPriority) : Word64 :=
  let index := (state &&& kIndexMasksExt p) >>> kIndexShift p
  let otherIndices := state &&& kIndexMaskCompl p
  -- the source masks with the number of bits here, not with `kIndicesMask`
  let counter := (state &&& ~~~(BitVec.ofNat 64 kIndicesBits)) >>> kIndicesBits
  (((index + 1) &&& kIndexMaskExt) <<< kIndexShift p) |||
    (((counter + 1) &&& kModificationCounterMask) <<< kIndicesBits) ||| otherIndices

/-- `PointerState::Inc`, with the assertions of `CheckState`. -/
def inc (state : Word64) (p : TaskPriority) : Option Word64 :=
  if checkState state p (incWord state p) then some (incWord state p) else none

/-! ## The fields as numbers -/

theorem index_eq_field (state : Word64) (p : TaskPriority) :
    index state p = field (11 * p.toNat) 10 state := rfl

theorem indexExt_eq_field (state : Word64) (p : TaskPriority) :
    indexExt state p = field (11 * p.toNat) 11 state := rfl

theorem getLsbD_indexExt (state : Word64) (p : TaskPriority) (i : Nat) :
    (indexExt state p).getLsbD i = (decide (i < 11) && state.getLsbD (11 * p.toNat + i)) := by
  have := p.toNat_lt
  exact getLsbD_field (show 11 * p.toNat + 11 ≤ 64 by omega) state i

theorem toNat_indexExt_lt (state : Word64) (p : TaskPriority) : (indexExt state p).toNat < 2048 := by
  have := p.toNat_lt
  exact toNat_field_lt (show 11 * p.toNat + 11 ≤ 64 by omega) state

/-- The index without its overflow bit. -/
theorem toNat_index (state : Word64) (p : TaskPriority) :
    (index state p).toNat = (indexExt state p).toNat % 1024 := by
  have := p.toNat_lt
  rw [index_eq_field, indexExt_eq_field, toNat_field (by omega), toNat_field (by omega)]
  omega

theorem toNat_and_kIndexMaskExt (x : Word64) : (x &&& kIndexMaskExt).toNat = x.toNat % 2048 := by
  rw [BitVec.toNat_and]
  exact Nat.and_two_pow_sub_one_eq_mod x.toNat 11

theorem toNat_and_kIndexMask (x : Word64) : (x &&& kIndexMask).toNat = x.toNat % 1024 := by
  rw [BitVec.toNat_and]
  exact Nat.and_two_pow_sub_one_eq_mod x.toNat 10

/-- The modification counter: the bits above the indices. -/
def counter (state : Word64) : Word64 := state >>> kIndicesBits

theorem counter_eq_of_mask {state m : Word64} (hm : ∀ i, kIndicesBits ≤ i → m.getLsbD i = false) :
    (state &&& ~~~m) >>> kIndicesBits = counter state := by
  apply BitVec.eq_of_getLsbD_eq
  intro i hi
  rw [counter, BitVec.getLsbD_ushiftRight, BitVec.getLsbD_ushiftRight, BitVec.getLsbD_and,
    BitVec.getLsbD_not, hm _ (by omega)]
  by_cases h : kIndicesBits + i < 64
  · simp [h]
  · simp [BitVec.getLsbD_of_ge state _ (by omega : 64 ≤ kIndicesBits + i)]

/-! ## Writing one index -/

theorem getLsbD_kIndexMasksExt (p : TaskPriority) (i : Nat) :
    (kIndexMasksExt p).getLsbD i =
      decide (i < 64 ∧ 11 * p.toNat ≤ i ∧ i < 11 * p.toNat + 11) :=
  getLsbD_mask (w := 64) (11 * p.toNat) 11 i

/-- The bits of the other three indices. -/
theorem getLsbD_kIndexMaskCompl (p : TaskPriority) (i : Nat) :
    (kIndexMaskCompl p).getLsbD i =
      decide (i < 44 ∧ ¬ (11 * p.toNat ≤ i ∧ i < 11 * p.toNat + 11)) := by
  cases p <;>
  · rw [kIndexMaskCompl, BitVec.getLsbD_or, BitVec.getLsbD_or, getLsbD_kIndexMasksExt,
      getLsbD_kIndexMasksExt, getLsbD_kIndexMasksExt, ← Bool.decide_or, ← Bool.decide_or,
      decide_eq_decide]
    simp only [TaskPriority.toNat]
    omega

/-- The fields of two priorities do not meet. -/
theorem field_disjoint {p p' : TaskPriority} (h : p' ≠ p) {i : Nat} (hi : i < 11) :
    ¬ (11 * p.toNat ≤ 11 * p'.toNat + i ∧ 11 * p'.toNat + i < 11 * p.toNat + 11) := by
  have hne : p'.toNat ≠ p.toNat := fun he => h (TaskPriority.toNat_inj he)
  omega

/-- `WithIndexExt` of an index that fits writes that index and nothing else. -/
theorem withIndexExt_spec (state : Word64) {index : Word64} (hi : index.toNat < 2048)
    (p : TaskPriority) : ∃ state', withIndexExt state index p = some state' ∧
      indexExt state' p = index ∧ (∀ p', p' ≠ p → indexExt state' p' = indexExt state p') := by
  have hbit : ∀ i, 11 ≤ i → index.getLsbD i = false := fun i h11 =>
    Nat.testBit_lt_two_pow (Nat.lt_of_lt_of_le hi (Nat.pow_le_pow_right (n := 2) (by decide) h11))
  have hfit : index &&& ~~~kIndexMaskExt = 0 := by
    apply BitVec.eq_of_getLsbD_eq
    intro i h64
    rw [BitVec.getLsbD_and, BitVec.getLsbD_not, show kIndexMaskExt = mask 64 0 11 from rfl,
      getLsbD_mask]
    by_cases h11 : i < 11
    · simp [h11, h64]
    · simp [hbit i (by omega)]
  refine ⟨_, by rw [withIndexExt, if_pos hfit], ?_, fun p' hne => ?_⟩
  · apply BitVec.eq_of_getLsbD_eq
    intro i h64
    have := p.toNat_lt
    rw [getLsbD_indexExt, BitVec.getLsbD_or, BitVec.getLsbD_and, BitVec.getLsbD_not,
      getLsbD_kIndexMasksExt, BitVec.getLsbD_shiftLeft]
    by_cases h11 : i < 11
    · simp [h11, show 11 * p.toNat + i < 64 by omega, kIndexShift, kCounterBits,
        show ¬ 11 * p.toNat + i < 11 * p.toNat by omega]
    · simp [h11, hbit i (by omega)]
  · apply BitVec.eq_of_getLsbD_eq
    intro i h64
    have := p'.toNat_lt
    rw [getLsbD_indexExt, getLsbD_indexExt, BitVec.getLsbD_or, BitVec.getLsbD_and,
      BitVec.getLsbD_not, getLsbD_kIndexMasksExt, BitVec.getLsbD_shiftLeft]
    by_cases h11 : i < 11
    · have hd := field_disjoint hne h11
      have hs : (decide (11 * p'.toNat + i < 64) && !decide (11 * p'.toNat + i < kIndexShift p) &&
          index.getLsbD (11 * p'.toNat + i - kIndexShift p)) = false := by
        unfold kIndexShift kCounterBits
        by_cases hlo : 11 * p'.toNat + i < 11 * p.toNat
        · simp [hlo]
        · rw [hbit _ (by omega), Bool.and_false]
      rw [hs]
      simp [h11, show 11 * p'.toNat + i < 64 by omega, hd]
    · simp [h11]

/-! ## Counting up one index -/

/-- Bit `i` of the word that `Inc` computes. -/
theorem getLsbD_incWord (state : Word64) (p : TaskPriority) {i : Nat} (h64 : i < 64) :
    (incWord state p).getLsbD i =
      if 11 * p.toNat ≤ i ∧ i < 11 * p.toNat + 11 then
        ((indexExt state p + 1) &&& kIndexMaskExt).getLsbD (i - 11 * p.toNat)
      else if 44 ≤ i then (counter state + 1).getLsbD (i - 44)
      else state.getLsbD i := by
  have hp := p.toNat_lt
  have hcnt : (state &&& ~~~(BitVec.ofNat 64 kIndicesBits)) >>> kIndicesBits = counter state :=
    counter_eq_of_mask fun j hj => by
      rw [BitVec.getLsbD_ofNat, Nat.testBit_lt_two_pow, Bool.and_false]
      exact Nat.lt_of_lt_of_le (by decide) (Nat.pow_le_pow_right (n := 2) (by decide) hj)
  rw [incWord, hcnt, BitVec.getLsbD_or, BitVec.getLsbD_or, BitVec.getLsbD_and,
    getLsbD_kIndexMaskCompl, BitVec.getLsbD_shiftLeft, BitVec.getLsbD_shiftLeft]
  change (_ && !decide (i < 11 * p.toNat) && ((indexExt state p + 1) &&& kIndexMaskExt).getLsbD
    (i - 11 * p.toNat) || _ && !decide (i < 44) && _ || _) = _
  split_ifs with h1 h2
  · -- the field of `p`
    simp [h64, h1, show ¬ i < 11 * p.toNat by omega, show i < 44 by omega]
  · -- the counter, which takes the remaining 20 bits
    have hlow : ((indexExt state p + 1) &&& kIndexMaskExt).getLsbD (i - 11 * p.toNat) = false := by
      rw [BitVec.getLsbD_and, show kIndexMaskExt = mask 64 0 11 from rfl, getLsbD_mask,
        decide_eq_false (by omega), Bool.and_false]
    have hmask : kModificationCounterMask.getLsbD (i - 44) = true := by
      rw [show kModificationCounterMask = mask 64 0 20 from rfl, getLsbD_mask]
      exact decide_eq_true (by omega)
    rw [hlow]
    simp only [kIndicesBits, kCounterBits, kNumTaskPriorities, BitVec.getLsbD_and, hmask]
    simp [h64, show ¬ i < 44 by omega]
  · -- another field
    have hlow : (!decide (i < 11 * p.toNat) &&
        ((indexExt state p + 1) &&& kIndexMaskExt).getLsbD (i - 11 * p.toNat)) = false := by
      rw [BitVec.getLsbD_and, show kIndexMaskExt = mask 64 0 11 from rfl, getLsbD_mask]
      by_cases hlt : i < 11 * p.toNat
      · simp [hlt]
      · rw [decide_eq_false (p := _ ∧ _) (by omega), Bool.and_false, Bool.and_false]
    rw [Bool.and_assoc, hlow]
    simp [h1, show i < 44 by omega]

/-- `Inc` moves its own index up, rolling over, and leaves the other three alone. -/
theorem indexExt_incWord (state : Word64) (p : TaskPriority) :
    indexExt (incWord state p) p = (indexExt state p + 1) &&& kIndexMaskExt ∧
    ∀ p', p' ≠ p → indexExt (incWord state p) p' = indexExt state p' := by
  have hp := p.toNat_lt
  constructor
  · apply BitVec.eq_of_getLsbD_eq
    intro i h64
    rw [getLsbD_indexExt]
    by_cases h11 : i < 11
    · rw [getLsbD_incWord state p (by omega), if_pos (by omega)]
      simp [h11]
    · rw [BitVec.getLsbD_and, show kIndexMaskExt = mask 64 0 11 from rfl, getLsbD_mask]
      simp [h11]
  · intro p' hne
    have hp' := p'.toNat_lt
    apply BitVec.eq_of_getLsbD_eq
    intro i h64
    rw [getLsbD_indexExt, getLsbD_indexExt]
    by_cases h11 : i < 11
    · rw [getLsbD_incWord state p (by omega), if_neg (field_disjoint hne h11), if_neg (by omega)]
    · simp [h11]

theorem toNat_counter_lt (state : Word64) : (counter state).toNat < 2 ^ 20 := by
  have := state.isLt
  rw [counter, BitVec.toNat_ushiftRight, show kIndicesBits = 44 from rfl,
    Nat.shiftRight_eq_div_pow]
  omega

/-- `Inc` counts, rolling over. -/
theorem toNat_counter_incWord (state : Word64) (p : TaskPriority) :
    (counter (incWord state p)).toNat = ((counter state).toNat + 1) % 2 ^ 20 := by
  have hp := p.toNat_lt
  have hc : counter (incWord state p) = (counter state + 1) &&& kModificationCounterMask := by
    apply BitVec.eq_of_getLsbD_eq
    intro i h64
    rw [counter, BitVec.getLsbD_ushiftRight, BitVec.getLsbD_and,
      show kModificationCounterMask = mask 64 0 20 from rfl, getLsbD_mask,
      show kIndicesBits = 44 from rfl]
    by_cases h20 : i < 20
    · rw [getLsbD_incWord state p (by omega), if_neg (by omega), if_pos (by omega)]
      simp [h20, h64]
    · rw [BitVec.getLsbD_of_ge _ _ (by omega), decide_eq_false (by omega), Bool.and_false]
  have hlt := toNat_counter_lt state
  rw [hc, BitVec.toNat_and, BitVec.toNat_add, show (1 : Word64).toNat = 1 from rfl]
  show _ &&& (2 ^ 20 - 1) = _
  rw [Nat.and_two_pow_sub_one_eq_mod]
  omega

/-- The assertions of `CheckState` hold. -/
theorem inc_eq (state : Word64) (p : TaskPriority) : inc state p = some (incWord state p) := by
  have hmask : ∀ i, kIndicesBits ≤ i → kIndicesMask.getLsbD i = false := fun i hi => by
    rw [show kIndicesMask = mask 64 0 44 from rfl, getLsbD_mask]
    rw [show kIndicesBits = 44 from rfl] at hi
    exact decide_eq_false (by omega)
  have hcheck : checkState state p (incWord state p) = true := by
    have hidx := toNat_index state p
    have hidx' := toNat_index (incWord state p) p
    rw [(indexExt_incWord state p).1, toNat_and_kIndexMaskExt, BitVec.toNat_add,
      show (1 : Word64).toNat = 1 from rfl] at hidx'
    have hlt := toNat_indexExt_lt state p
    have hcnt := toNat_counter_incWord state p
    have hcap : (BitVec.ofNat 64 (kCapacity - 1)).toNat = 1023 := rfl
    have hcc : ((BitVec.ofNat 64 (2 ^ kModificationCounterBits) : Word64) - 1).toNat = 2 ^ 20 - 1 := rfl
    have h1 : (1 : Word64).toNat = 1 := rfl
    have h0 : (0 : Word64).toNat = 0 := rfl
    have hclt := toNat_counter_lt state
    simp only [checkState, counter_eq_of_mask hmask, Bool.and_eq_true, Bool.or_eq_true, beq_iff_eq,
      bne_iff_ne, ne_eq]
    change (((index state p = _ ∨ index (incWord state p) p - index state p = _) ∧
      (¬ index state p = _ ∨ index (incWord state p) p = _)) ∧ _) ∧ _
    simp only [← BitVec.toNat_inj, BitVec.toNat_sub, hcap, hcc, h0, h1]
    omega
  rw [inc, if_pos hcheck]

end TaskPriorityDeque

end AsyncLib
