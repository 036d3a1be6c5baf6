import AsyncLib.Lib.Bitfield
import Mathlib.Data.Fin.VecNotation

/-!
# `PointerIntPair` and `PointerUnion`

`async/support/type_traits.h` and `async/support/extra_structure.h`. A pointer whose type leaves its
low bits free shares its word with a small integer: `PointerIntPair` puts the integer at the top of
the free bits, and what it leaves below is free in turn, so that pairs and unions nest. `none` is a
failed assertion.

* `PointerIntPairInfo`: the masks and the shift, and the operations on the word.
* `PointerLike`: the types a word can hold, nested to any depth; `Value`: what one holds.
* `pairs_keep_their_fields`: every field of a nest is read back, alone changed by its own update, and
  decided by the word.
-/

namespace AsyncLib

/-- The low `n` bits are zero. -/
def LowZero (n : Nat) (w : BitVec 64) : Prop := ∀ i < n, w.getLsbD i = false

instance (n : Nat) (w : BitVec 64) : Decidable (LowZero n w) :=
  inferInstanceAs (Decidable (∀ i < n, w.getLsbD i = false))

theorem LowZero.mono {n m : Nat} {w : BitVec 64} (h : LowZero n w) (hle : m ≤ n) : LowZero m w :=
  fun i hi => h i (Nat.lt_of_lt_of_le hi hle)

/-- An integer below `2^k` has no bit from `k` on. -/
theorem getLsbD_of_lt {k : Nat} {x : BitVec 64} (h : x.toNat < 2 ^ k) {i : Nat} (hi : k ≤ i) :
    x.getLsbD i = false :=
  Nat.testBit_lt_two_pow (Nat.lt_of_lt_of_le h (Nat.pow_le_pow_right (by decide) hi))

namespace PointerIntPairInfo

/-! ## The word -/

/-- `kPointerBitMask`. -/
def pointerBitMask (n : Nat) : BitVec 64 := ~~~((1#64 <<< n) - 1#64)

/-- `kIntShift`. -/
def intShift (n k : Nat) : Nat := n - k

/-- `kIntMask`. -/
def intMask (k : Nat) : BitVec 64 := (1#64 <<< k) - 1#64

/-- `kShiftedIntMask`. -/
def shiftedIntMask (n k : Nat) : BitVec 64 := intMask k <<< intShift n k

/-- `GetPointer`. -/
def getPointer (n : Nat) (value : BitVec 64) : BitVec 64 := value &&& pointerBitMask n

/-- `(value >> IntShift) & IntMask`; `intptr_t` is signed. -/
def getInt (n k : Nat) (value : BitVec 64) : BitVec 64 :=
  value.sshiftRight (intShift n k) &&& intMask k

/-- Asserts that the pointer is sufficiently aligned. -/
def updatePointer (n : Nat) (origValue ptrWord : BitVec 64) : Option (BitVec 64) :=
  if ptrWord &&& ~~~pointerBitMask n = 0 then
    some (ptrWord ||| (origValue &&& ~~~pointerBitMask n))
  else none

/-- Asserts that the integer is not too large for the field. -/
def updateInt (n k : Nat) (origValue intWord : BitVec 64) : Option (BitVec 64) :=
  if intWord &&& ~~~intMask k = 0 then
    some ((origValue &&& ~~~shiftedIntMask n k) ||| intWord <<< intShift n k)
  else none

variable {n k : Nat}

theorem getLsbD_pointerBitMask (hn : n < 64) (i : Nat) :
    (pointerBitMask n).getLsbD i = (decide (i < 64) && !decide (i < n)) := by
  rw [pointerBitMask, BitVec.getLsbD_not, Bitfield.getLsbD_one_shiftLeft_sub_one hn]

theorem getLsbD_intMask (hk : k < 64) (i : Nat) : (intMask k).getLsbD i = decide (i < k) :=
  Bitfield.getLsbD_one_shiftLeft_sub_one hk i

theorem getLsbD_getPointer (hn : n < 64) (value : BitVec 64) (i : Nat) :
    (getPointer n value).getLsbD i = (value.getLsbD i && !decide (i < n)) := by
  rw [getPointer, BitVec.getLsbD_and, getLsbD_pointerBitMask hn]
  by_cases hi : i < 64
  · simp [hi]
  · simp [BitVec.getLsbD_of_ge value i (by omega)]

theorem getLsbD_getInt (hn : n < 64) (hk : k ≤ n) (value : BitVec 64) (i : Nat) :
    (getInt n k value).getLsbD i = (value.getLsbD (n - k + i) && decide (i < k)) := by
  rw [getInt, BitVec.getLsbD_and, getLsbD_intMask (by omega), BitVec.getLsbD_sshiftRight, intShift]
  by_cases hi : i < k
  · have h1 : ¬ 64 ≤ i := by omega
    have h2 : n - k + i < 64 := by omega
    simp [hi, h1, h2]
  · simp [hi]

/-- An aligned pointer passes its assertion and goes above the low bits of the word. -/
theorem updatePointer_eq (hn : n < 64) {p : BitVec 64} (hp : LowZero n p) (origValue : BitVec 64) :
    updatePointer n origValue p = some (p ||| (origValue &&& ~~~pointerBitMask n)) := by
  refine if_pos ?_
  apply BitVec.eq_of_getLsbD_eq
  intro i hi
  rw [BitVec.getLsbD_and, BitVec.getLsbD_not, getLsbD_pointerBitMask hn]
  show _ = (0#64).getLsbD i
  rw [BitVec.getLsbD_zero]
  by_cases h : i < n
  · rw [hp i h, Bool.false_and]
  · simp [h]

/-- An integer that fits passes its assertion and goes into its field. -/
theorem updateInt_eq (hn : n < 64) (hk : k ≤ n) {x : BitVec 64} (hx : x.toNat < 2 ^ k)
    (origValue : BitVec 64) :
    updateInt n k origValue x =
      some ((origValue &&& ~~~shiftedIntMask n k) ||| x <<< intShift n k) := by
  refine if_pos ?_
  apply BitVec.eq_of_getLsbD_eq
  intro i hi
  rw [BitVec.getLsbD_and, BitVec.getLsbD_not, getLsbD_intMask (by omega)]
  show _ = (0#64).getLsbD i
  rw [BitVec.getLsbD_zero]
  by_cases h : i < k
  · simp [h]
  · rw [getLsbD_of_lt hx (Nat.not_lt.mp h), Bool.false_and]

theorem getLsbD_updatePointer (hn : n < 64) {p origValue w : BitVec 64} (hp : LowZero n p)
    (hw : updatePointer n origValue p = some w) (i : Nat) :
    w.getLsbD i = if i < n then origValue.getLsbD i else p.getLsbD i := by
  rw [updatePointer_eq hn hp] at hw
  cases hw
  rw [BitVec.getLsbD_or, BitVec.getLsbD_and, BitVec.getLsbD_not, getLsbD_pointerBitMask hn]
  by_cases h : i < n
  · have hi : i < 64 := by omega
    rw [hp i h]
    simp [h, hi]
  · simp [h]

theorem getLsbD_updateInt (hn : n < 64) (hk : k ≤ n) {x origValue w : BitVec 64}
    (hx : x.toNat < 2 ^ k) (hw : updateInt n k origValue x = some w) (i : Nat) :
    w.getLsbD i = if n - k ≤ i ∧ i < n then x.getLsbD (i - (n - k)) else origValue.getLsbD i := by
  rw [updateInt_eq hn hk hx] at hw
  cases hw
  rw [BitVec.getLsbD_or, BitVec.getLsbD_and, BitVec.getLsbD_not, shiftedIntMask,
    BitVec.getLsbD_shiftLeft, BitVec.getLsbD_shiftLeft, getLsbD_intMask (by omega), intShift]
  by_cases hlo : i < n - k
  · have hi : i < 64 := by omega
    simp [hlo, hi, Nat.not_le.mpr hlo]
  · by_cases hhi : i < n
    · have hi : i < 64 := by omega
      have hf : i - (n - k) < k := by omega
      simp [hlo, hhi, hi, hf, Nat.not_lt.mp hlo]
    · have hf : k ≤ i - (n - k) := by omega
      by_cases hi : i < 64
      · simp [hhi, hi, Nat.not_lt.mpr hf, getLsbD_of_lt hx hf]
      · simp [hhi, hi, BitVec.getLsbD_of_ge origValue i (by omega)]

end PointerIntPairInfo

/-! ## `PointerIntPair`

`n` bits of the pointer are free, the integer takes `k` of them. -/

namespace PointerIntPair

open PointerIntPairInfo

/-- `SetPointer`; `none` if an assertion fails. -/
def setPointer (n : Nat) (value ptrValue : BitVec 64) : Option (BitVec 64) :=
  updatePointer n value ptrValue

/-- `SetInt`; `none` if an assertion fails. -/
def setInt (n k : Nat) (value intVal : BitVec 64) : Option (BitVec 64) :=
  updateInt n k value intVal

/-- `SetPointerAndInt`; `none` if an assertion fails. -/
def setPointerAndInt (n k : Nat) (ptrValue intVal : BitVec 64) : Option (BitVec 64) :=
  (updatePointer n 0 ptrValue).bind fun value => updateInt n k value intVal

/-- `w` holds the pointer `p` and the integer `x`, and nothing below them. -/
structure Holds (n k : Nat) (w p x : BitVec 64) : Prop where
  pointer : getPointer n w = p
  int : getInt n k w = x
  low : LowZero (n - k) w

variable {n k : Nat}

/-- What a word holds decides its bits. -/
theorem Holds.getLsbD {w p x : BitVec 64} (h : Holds n k w p x) (hn : n < 64) (hk : k ≤ n)
    (i : Nat) : w.getLsbD i =
      if i < n - k then false else if i < n then x.getLsbD (i - (n - k)) else p.getLsbD i := by
  by_cases hlo : i < n - k
  · rw [if_pos hlo, h.low i hlo]
  · rw [if_neg hlo]
    by_cases hhi : i < n
    · have hf : i - (n - k) < k := by omega
      have hsum : n - k + (i - (n - k)) = i := by omega
      rw [if_pos hhi, ← h.int, getLsbD_getInt hn hk, hsum]
      simp [hf]
    · rw [if_neg hhi, ← h.pointer, getLsbD_getPointer hn]
      simp [hhi]

theorem Holds.unique {w w' p x : BitVec 64} (hn : n < 64) (hk : k ≤ n) (h : Holds n k w p x)
    (h' : Holds n k w' p x) : w = w' := by
  apply BitVec.eq_of_getLsbD_eq
  intro i _
  rw [h.getLsbD hn hk, h'.getLsbD hn hk]

/-- `setPointer` keeps the integer, and the bits below it zero. -/
theorem setPointer_spec (hn : n < 64) (hk : k ≤ n) {p : BitVec 64} (hp : LowZero n p)
    (w : BitVec 64) :
    ∃ w', setPointer n w p = some w' ∧ getPointer n w' = p ∧ getInt n k w' = getInt n k w ∧
      (LowZero (n - k) w → LowZero (n - k) w') := by
  refine ⟨_, updatePointer_eq hn hp w, ?_⟩
  have hbit := getLsbD_updatePointer hn hp (updatePointer_eq hn hp w)
  refine ⟨?_, ?_, fun hlow i hi => ?_⟩
  · apply BitVec.eq_of_getLsbD_eq
    intro i _
    rw [getLsbD_getPointer hn, hbit]
    by_cases h : i < n
    · simp [h, hp i h]
    · simp [h]
  · apply BitVec.eq_of_getLsbD_eq
    intro i _
    rw [getLsbD_getInt hn hk, getLsbD_getInt hn hk, hbit]
    by_cases h : i < k
    · rw [if_pos (by omega)]
    · simp [h]
  · rw [hbit, if_pos (by omega), hlow i hi]

/-- `setInt` keeps the pointer, and the bits below the integer zero. -/
theorem setInt_spec (hn : n < 64) (hk : k ≤ n) {x : BitVec 64} (hx : x.toNat < 2 ^ k)
    (w : BitVec 64) :
    ∃ w', setInt n k w x = some w' ∧ getPointer n w' = getPointer n w ∧ getInt n k w' = x ∧
      (LowZero (n - k) w → LowZero (n - k) w') := by
  refine ⟨_, updateInt_eq hn hk hx w, ?_⟩
  have hbit := getLsbD_updateInt hn hk hx (updateInt_eq hn hk hx w)
  refine ⟨?_, ?_, fun hlow i hi => ?_⟩
  · apply BitVec.eq_of_getLsbD_eq
    intro i _
    rw [getLsbD_getPointer hn, getLsbD_getPointer hn, hbit]
    by_cases h : i < n
    · simp [h]
    · rw [if_neg (fun hf => h hf.2)]
  · apply BitVec.eq_of_getLsbD_eq
    intro i _
    rw [getLsbD_getInt hn hk, hbit]
    by_cases h : i < k
    · have hf : n - k ≤ n - k + i ∧ n - k + i < n := by omega
      rw [if_pos hf, Nat.add_sub_cancel_left]
      simp [h]
    · simp [h, getLsbD_of_lt hx (Nat.not_lt.mp h)]
  · rw [hbit, if_neg (by omega), hlow i hi]

theorem Holds.setPointer (hn : n < 64) (hk : k ≤ n) {w p x p' : BitVec 64} (h : Holds n k w p x)
    (hp : LowZero n p') : ∃ w', setPointer n w p' = some w' ∧ Holds n k w' p' x := by
  obtain ⟨w', hw, hpointer, hint, hlow⟩ := setPointer_spec hn hk hp w
  exact ⟨w', hw, hpointer, hint.trans h.int, hlow h.low⟩

theorem Holds.setInt (hn : n < 64) (hk : k ≤ n) {w p x x' : BitVec 64} (h : Holds n k w p x)
    (hx : x'.toNat < 2 ^ k) : ∃ w', setInt n k w x' = some w' ∧ Holds n k w' p x' := by
  obtain ⟨w', hw, hpointer, hint, hlow⟩ := setInt_spec hn hk hx w
  exact ⟨w', hw, hpointer.trans h.pointer, hint, hlow h.low⟩

theorem setPointerAndInt_spec (hn : n < 64) (hk : k ≤ n) {p x : BitVec 64} (hp : LowZero n p)
    (hx : x.toNat < 2 ^ k) : ∃ w, setPointerAndInt n k p x = some w ∧ Holds n k w p x := by
  have hzero : LowZero (n - k) (0 : BitVec 64) := fun i _ => BitVec.getLsbD_zero
  obtain ⟨v, hv, hpointer, hint, hlow⟩ := setPointer_spec hn hk hp 0
  have hold : Holds n k v p (getInt n k 0) := ⟨hpointer, hint, hlow hzero⟩
  obtain ⟨w, hw, h⟩ := hold.setInt hn hk hx
  refine ⟨w, ?_, h⟩
  rw [setPointerAndInt, show updatePointer n 0 p = some v from hv]
  exact hw

end PointerIntPair

/-! ## Nested pointers -/

/-- `bitsRequired`: the width of a discriminator of `n` alternatives. -/
def bitsRequired (n : Nat) : Nat :=
  if n > 1 then 1 + bitsRequired ((n + 1) / 2) else 0
termination_by n
decreasing_by omega

theorem le_two_pow_bitsRequired (n : Nat) : n ≤ 2 ^ bitsRequired n := by
  induction n using bitsRequired.induct with
  | case1 n h ih =>
    rw [bitsRequired, if_pos h, Nat.pow_add]
    omega
  | case2 n h =>
    rw [bitsRequired, if_neg h]
    omega

/-- A pointer-like type: a pointer whose alignment frees its low bits, a `PointerIntPair` over a
pointer-like type, or a `PointerUnion` of several. -/
inductive PointerLike where
  | pointer (numLowBits : Nat)
  | pair (pointerT : PointerLike) (intBits : Nat)
  | union (size : Nat) (pts : Fin size → PointerLike)

namespace PointerLike

open PointerIntPairInfo PointerIntPair

/-- `std::min` of the members' numbers. -/
def lowest {size : Nat} (bits : Fin size → Nat) : Nat := (List.ofFn bits).min?.getD 0

theorem lowest_le {size : Nat} (bits : Fin size → Nat) (j : Fin size) : lowest bits ≤ bits j :=
  List.min?_getD_le_of_mem (List.mem_ofFn.mpr ⟨j, rfl⟩)

/-- `PointerLikeTypeTraits<T>::NumLowBitsAvailable`. -/
def numLowBitsAvailable : PointerLike → Nat
  | pointer n => n
  | pair t k => numLowBitsAvailable t - k
  | union size pts => lowest (fun j => numLowBitsAvailable (pts j)) - bitsRequired size

/-- `lowBitsAvailable<Pts...>()`. -/
def lowBitsAvailable {size : Nat} (pts : Fin size → PointerLike) : Nat :=
  lowest fun j => numLowBitsAvailable (pts j)

/-- The static assertions of `PointerIntPairInfo`, at every level. -/
def WellFormed : PointerLike → Prop
  | pointer n => n < 64
  | pair t k => WellFormed t ∧ t.numLowBitsAvailable < 64 ∧ k ≤ t.numLowBitsAvailable
  | union size pts => (∀ j, WellFormed (pts j)) ∧ lowBitsAvailable pts < 64 ∧
      bitsRequired size ≤ lowBitsAvailable pts

/-- What an object of the type holds: the pointer and every integer of the nest. -/
def Value : PointerLike → Type
  | pointer n => {p : BitVec 64 // LowZero n p}
  | pair t k => Value t × Fin (2 ^ k)
  | union size pts => (j : Fin size) × Value (pts j)

/-- `PointerLikeTypeTraits<T>::getAsVoidPointer` of an object built with these values. -/
def getAsVoidPointer : (t : PointerLike) → t.Value → Option (BitVec 64)
  | pointer _, p => some p.1
  | pair t k, v => do
    let p ← getAsVoidPointer t v.1
    setPointerAndInt t.numLowBitsAvailable k p (BitVec.ofNat 64 v.2)
  | union size pts, v => do
    let p ← getAsVoidPointer (pts v.1) v.2
    setPointerAndInt (lowBitsAvailable pts) (bitsRequired size) p (BitVec.ofNat 64 v.1)

/-- `getFromVoidPointer`, and then `getPointer` and `getInt`, or `is` and `get`, down the nest. -/
def getFromVoidPointer : (t : PointerLike) → BitVec 64 → Option t.Value
  | pointer n, w => if h : LowZero n w then some ⟨w, h⟩ else none
  | pair t k, w => do
    let p ← getFromVoidPointer t (getPointer t.numLowBitsAvailable w)
    if h : (getInt t.numLowBitsAvailable k w).toNat < 2 ^ k then some (p, ⟨_, h⟩) else none
  | union size pts, w =>
    if h : (getInt (lowBitsAvailable pts) (bitsRequired size) w).toNat < size then do
      let p ← getFromVoidPointer (pts ⟨_, h⟩) (getPointer (lowBitsAvailable pts) w)
      some ⟨⟨_, h⟩, p⟩
    else none

/-! ## The fields of a nest -/

/-- One field level of a nest: the integer fits, and the pointer below frees enough bits. -/
theorem toNat_ofNat_fin {k n : Nat} (hn : n < 64) (hk : k ≤ n) (i : Fin (2 ^ k)) :
    (BitVec.ofNat 64 i).toNat = i := by
  have hlt : 2 ^ k ≤ 2 ^ 63 := Nat.pow_le_pow_right (by decide) (by omega)
  have hi := i.isLt
  rw [BitVec.toNat_ofNat, Nat.mod_eq_of_lt (by omega)]

/-- A well-formed object is built without a failed assertion, leaves its free bits zero and is read
back from its word. -/
theorem getFromVoidPointer_getAsVoidPointer (t : PointerLike) (ht : t.WellFormed) (v : t.Value) :
    ∃ w, getAsVoidPointer t v = some w ∧ LowZero t.numLowBitsAvailable w ∧
      getFromVoidPointer t w = some v := by
  induction t with
  | pointer n =>
    obtain ⟨p, hp⟩ := v
    exact ⟨p, rfl, hp, dif_pos hp⟩
  | pair t k ih =>
    obtain ⟨p, i⟩ := v
    obtain ⟨ht, hn, hk⟩ := ht
    obtain ⟨wp, hwp, hlow, hread⟩ := ih ht p
    have hi := toNat_ofNat_fin hn hk i
    obtain ⟨w, hw, h⟩ := setPointerAndInt_spec hn hk hlow (hi ▸ i.isLt)
    have hint : (getInt t.numLowBitsAvailable k w).toNat = i := by rw [h.int, hi]
    have hlt : (getInt t.numLowBitsAvailable k w).toNat < 2 ^ k := hint ▸ i.isLt
    refine ⟨w, ?_, h.low, ?_⟩
    · simp only [getAsVoidPointer, hwp, Option.bind_eq_bind, Option.bind_some, hw]
    · simp only [getFromVoidPointer, h.pointer, hread, Option.bind_eq_bind, Option.bind_some,
        dif_pos hlt]
      exact congrArg some (Prod.ext rfl (Fin.ext hint))
  | union size pts ih =>
    obtain ⟨j, p⟩ := v
    obtain ⟨hpts, hn, hk⟩ := ht
    obtain ⟨wp, hwp, hlow, hread⟩ := ih j (hpts j) p
    have hj : j.val < 2 ^ bitsRequired size :=
      Nat.lt_of_lt_of_le j.isLt (le_two_pow_bitsRequired size)
    have hi := toNat_ofNat_fin hn hk ⟨j.val, hj⟩
    obtain ⟨w, hw, h⟩ := setPointerAndInt_spec hn hk
      (hlow.mono (lowest_le (fun j => numLowBitsAvailable (pts j)) j)) (hi ▸ hj)
    have hint : (getInt (lowBitsAvailable pts) (bitsRequired size) w).toNat = j := by
      rw [h.int, hi]
    have hlt : (getInt (lowBitsAvailable pts) (bitsRequired size) w).toNat < size := hint ▸ j.isLt
    have hfin : (⟨_, hlt⟩ : Fin size) = j := Fin.ext hint
    refine ⟨w, ?_, h.low, ?_⟩
    · simp only [getAsVoidPointer, hwp, Option.bind_eq_bind, Option.bind_some, hw]
    · simp only [getFromVoidPointer, dif_pos hlt, h.pointer]
      rw [hfin, hread]
      rfl

/-- The word of a pair, from the words of its parts. -/
theorem holds_pair {t : PointerLike} {k : Nat} (ht : (pair t k).WellFormed) (p : t.Value)
    (i : Fin (2 ^ k)) :
    ∃ wp w, getAsVoidPointer t p = some wp ∧ LowZero t.numLowBitsAvailable wp ∧
      getAsVoidPointer (pair t k) (p, i) = some w ∧
      Holds t.numLowBitsAvailable k w wp (BitVec.ofNat 64 i) := by
  obtain ⟨ht, hn, hk⟩ := ht
  obtain ⟨wp, hwp, hlow, -⟩ := getFromVoidPointer_getAsVoidPointer t ht p
  have hi := toNat_ofNat_fin hn hk i
  obtain ⟨w, hw, h⟩ := setPointerAndInt_spec hn hk hlow (hi ▸ i.isLt)
  refine ⟨wp, w, hwp, hlow, ?_, h⟩
  simp only [getAsVoidPointer, hwp, Option.bind_eq_bind, Option.bind_some, hw]

/-- `setPointer` replaces the fields of the inner object and keeps the integer. -/
theorem setPointer_pair {t : PointerLike} {k : Nat} (ht : (pair t k).WellFormed) (p p' : t.Value)
    (i : Fin (2 ^ k)) :
    (do
      let w ← getAsVoidPointer (pair t k) (p, i)
      let wp ← getAsVoidPointer t p'
      setPointer t.numLowBitsAvailable w wp) = getAsVoidPointer (pair t k) (p', i) := by
  obtain ⟨wp, w, -, -, hw, h⟩ := holds_pair ht p i
  obtain ⟨wp', w', hwp', hlow, hw', h'⟩ := holds_pair ht p' i
  obtain ⟨-, hn, hk⟩ := ht
  obtain ⟨v, hv, hold⟩ := h.setPointer hn hk hlow
  rw [hw, hwp', hw']
  exact hv.trans (congrArg some (hold.unique hn hk h'))

/-- `setInt` replaces the integer and keeps every field of the inner object. -/
theorem setInt_pair {t : PointerLike} {k : Nat} (ht : (pair t k).WellFormed) (p : t.Value)
    (i i' : Fin (2 ^ k)) :
    (do
      let w ← getAsVoidPointer (pair t k) (p, i)
      setInt t.numLowBitsAvailable k w (BitVec.ofNat 64 i')) =
      getAsVoidPointer (pair t k) (p, i') := by
  obtain ⟨wp, w, hwp, -, hw, h⟩ := holds_pair ht p i
  obtain ⟨wp', w', hwp', -, hw', h'⟩ := holds_pair ht p i'
  have hp : wp' = wp := Option.some.inj (hwp'.symm.trans hwp)
  obtain ⟨-, hn, hk⟩ := ht
  obtain ⟨v, hv, hold⟩ := h.setInt hn hk ((toNat_ofNat_fin hn hk i').symm ▸ i'.isLt)
  rw [hw, hw']
  exact hv.trans (congrArg some (hold.unique hn hk (hp ▸ h')))

/-- Different values have different words. -/
theorem getAsVoidPointer_injective {t : PointerLike} (ht : t.WellFormed) {v v' : t.Value}
    (h : getAsVoidPointer t v = getAsVoidPointer t v') : v = v' := by
  obtain ⟨w, hw, -, hread⟩ := getFromVoidPointer_getAsVoidPointer t ht v
  obtain ⟨w', hw', -, hread'⟩ := getFromVoidPointer_getAsVoidPointer t ht v'
  have heq : w = w' := Option.some.inj (hw.symm.trans (h.trans hw'))
  subst heq
  exact Option.some.inj (hread.symm.trans hread')

/-- `callbackAndInlineFlag` of `unique_function`: the callbacks are aligned to eight bytes. -/
def callbackAndInlineFlag : PointerLike := pair (union 2 ![pointer 3, pointer 3]) 1

/-- `WaitersAndState` of an `AsyncValue`. -/
def waitersAndState : PointerLike := pair (pointer 3) 2

theorem callbackAndInlineFlag_wellFormed : callbackAndInlineFlag.WellFormed := by
  have hbits : bitsRequired 2 = 1 := by simp [bitsRequired]
  have hlow : lowBitsAvailable ![pointer 3, pointer 3] = 3 := by decide
  have hunion : numLowBitsAvailable (union 2 ![pointer 3, pointer 3]) = 2 := by
    show lowBitsAvailable ![pointer 3, pointer 3] - bitsRequired 2 = 2
    rw [hbits, hlow]
  refine ⟨⟨fun j => ?_, ?_, ?_⟩, ?_, ?_⟩
  · match j with
    | 0 | 1 => exact (by decide : 3 < 64)
  · rw [hlow]
    decide
  · rw [hbits, hlow]
    decide
  · rw [hunion]
    decide
  · rw [hunion]
    decide

theorem waitersAndState_wellFormed : waitersAndState.WellFormed :=
  ⟨(by decide : 3 < 64), (by decide : 3 < 64), (by decide : 2 ≤ 3)⟩

/-- A pair of any widths keeps its pointer, its integer and the bits below; and the fields of any
well-formed nest are read back, changed one at a time and decided by the word. -/
theorem pairs_keep_their_fields :
    (∀ (n k : Nat) (w p x : BitVec 64), n < 64 → k ≤ n → LowZero n p → x.toNat < 2 ^ k →
      (∃ w', setPointerAndInt n k p x = some w' ∧ getPointer n w' = p ∧ getInt n k w' = x ∧
        LowZero (n - k) w') ∧
      (∃ w', setPointer n w p = some w' ∧ getPointer n w' = p ∧ getInt n k w' = getInt n k w ∧
        (LowZero (n - k) w → LowZero (n - k) w')) ∧
      (∃ w', setInt n k w x = some w' ∧ getPointer n w' = getPointer n w ∧ getInt n k w' = x ∧
        (LowZero (n - k) w → LowZero (n - k) w'))) ∧
    (∀ t : PointerLike, t.WellFormed → ∀ v : t.Value,
      (∃ w, getAsVoidPointer t v = some w ∧ LowZero t.numLowBitsAvailable w ∧
        getFromVoidPointer t w = some v) ∧
      ∀ v', getAsVoidPointer t v = getAsVoidPointer t v' → v = v') ∧
    (∀ (t : PointerLike) (k : Nat), (pair t k).WellFormed →
      ∀ (p p' : t.Value) (i i' : Fin (2 ^ k)),
        (do
          let w ← getAsVoidPointer (pair t k) (p, i)
          let wp ← getAsVoidPointer t p'
          setPointer t.numLowBitsAvailable w wp) = getAsVoidPointer (pair t k) (p', i) ∧
        (do
          let w ← getAsVoidPointer (pair t k) (p, i)
          setInt t.numLowBitsAvailable k w (BitVec.ofNat 64 i')) =
          getAsVoidPointer (pair t k) (p, i')) ∧
    callbackAndInlineFlag.WellFormed ∧ waitersAndState.WellFormed := by
  refine ⟨fun n k w p x hn hk hp hx => ⟨?_, setPointer_spec hn hk hp w, setInt_spec hn hk hx w⟩,
    fun t ht v => ⟨getFromVoidPointer_getAsVoidPointer t ht v,
      fun v' h => getAsVoidPointer_injective ht h⟩,
    fun t k ht p p' i i' => ⟨setPointer_pair ht p p' i, setInt_pair ht p i i'⟩,
    callbackAndInlineFlag_wellFormed, waitersAndState_wellFormed⟩
  obtain ⟨w', hw, h⟩ := setPointerAndInt_spec hn hk hp hx
  exact ⟨w', hw, h.pointer, h.int, h.low⟩

/-- A pointer to address 16 with the inline flag, and one with the state of an `AsyncValue`. -/
theorem pairs_keep_their_fields_sixteen :
    (∃ w', setPointerAndInt 2 1 16 1 = some w' ∧ getPointer 2 w' = 16 ∧ getInt 2 1 w' = 1 ∧
      LowZero 1 w') ∧
    (∃ w, getAsVoidPointer waitersAndState (⟨16, by decide⟩, (2 : Fin 4)) = some w ∧
      LowZero 1 w ∧ getFromVoidPointer waitersAndState w = some (⟨16, by decide⟩, (2 : Fin 4))) :=
  ⟨(pairs_keep_their_fields.1 2 1 0 16 1 (by decide) (by decide) (by decide) (by decide)).1,
    (pairs_keep_their_fields.2.1 waitersAndState waitersAndState_wellFormed _).1⟩

end PointerLike

end AsyncLib
