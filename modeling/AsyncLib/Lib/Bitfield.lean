import Mathlib.Data.Nat.Basic
import Mathlib.Algebra.GroupWithZero.Nat
import Mathlib.Algebra.Group.Int.Defs

/-!
# Fields of a machine word

A word that packs several numbers. A field is `n` bits from bit `o` on; it is read by masking and
shifting down.

* `mask w o n`: the bits of the field; `field o n x`: the number in it.
* `toNat_field`: the field as a quotient and a remainder.
-/

namespace AsyncLib

namespace Bitfield

variable {w : Nat}

/-- The mask of the `n` bits from bit `o` on. -/
def mask (w o n : Nat) : BitVec w := BitVec.ofNat w (2 ^ n - 1) <<< o

/-- The number in the field of `n` bits from bit `o` on. -/
def field (o n : Nat) (x : BitVec w) : BitVec w := (x &&& mask w o n) >>> o

theorem getLsbD_ones (n i : Nat) :
    (BitVec.ofNat w (2 ^ n - 1)).getLsbD i = decide (i < w ∧ i < n) := by
  rw [BitVec.getLsbD_ofNat, Nat.testBit_two_pow_sub_one, Bool.decide_and]

/-- The low `n` bits set, as `(1 << n) - 1`. -/
theorem one_shiftLeft_sub_one {n : Nat} (h : n < w) :
    (1#w <<< n) - 1#w = BitVec.ofNat w (2 ^ n - 1) := by
  have hlt : 2 ^ n < 2 ^ w := Nat.pow_lt_pow_right (by decide) h
  have hpos := Nat.two_pow_pos n
  have hone : 1 % 2 ^ w = 1 := Nat.mod_eq_of_lt (Nat.lt_of_le_of_lt hpos hlt)
  apply BitVec.eq_of_toNat_eq
  rw [BitVec.toNat_sub, BitVec.toNat_shiftLeft, BitVec.toNat_ofNat, BitVec.toNat_ofNat, hone,
    Nat.shiftLeft_eq, Nat.one_mul, Nat.mod_eq_of_lt hlt,
    Nat.mod_eq_of_lt (Nat.lt_of_le_of_lt (Nat.sub_le _ _) hlt)]
  have hsum : 2 ^ w - 1 + 2 ^ n = 2 ^ n - 1 + 2 ^ w := by omega
  rw [hsum, Nat.add_mod_right, Nat.mod_eq_of_lt (Nat.lt_of_le_of_lt (Nat.sub_le _ _) hlt)]

theorem getLsbD_one_shiftLeft_sub_one {n : Nat} (h : n < w) (i : Nat) :
    ((1#w <<< n) - 1#w).getLsbD i = decide (i < n) := by
  rw [one_shiftLeft_sub_one h, getLsbD_ones, decide_eq_decide]
  omega

theorem getLsbD_mask (o n i : Nat) :
    (mask w o n).getLsbD i = decide (i < w ∧ o ≤ i ∧ i < o + n) := by
  rw [mask, BitVec.getLsbD_shiftLeft, getLsbD_ones, ← decide_not, ← Bool.decide_and,
    ← Bool.decide_and, decide_eq_decide]
  omega

theorem getLsbD_field {o n : Nat} (h : o + n ≤ w) (x : BitVec w) (i : Nat) :
    (field o n x).getLsbD i = (decide (i < n) && x.getLsbD (o + i)) := by
  rw [field, BitVec.getLsbD_ushiftRight, BitVec.getLsbD_and, getLsbD_mask, Bool.and_comm]
  by_cases hi : i < n
  · have h1 : o + i < w := by omega
    simp [hi, h1]
  · simp [hi]

theorem toNat_field {o n : Nat} (h : o + n ≤ w) (x : BitVec w) :
    (field o n x).toNat = x.toNat / 2 ^ o % 2 ^ n := by
  apply Nat.eq_of_testBit_eq
  intro i
  rw [Nat.testBit_mod_two_pow, Nat.testBit_div_two_pow]
  rw [Nat.add_comm i o]
  exact getLsbD_field h x i

theorem toNat_field_lt {o n : Nat} (h : o + n ≤ w) (x : BitVec w) : (field o n x).toNat < 2 ^ n := by
  rw [toNat_field h]
  exact Nat.mod_lt _ (Nat.two_pow_pos n)

theorem toNat_and_mask {o n : Nat} (h : o + n ≤ w) (x : BitVec w) :
    (x &&& mask w o n).toNat = 2 ^ o * (x.toNat / 2 ^ o % 2 ^ n) := by
  apply Nat.eq_of_testBit_eq
  intro i
  rw [Nat.testBit_two_pow_mul, Nat.testBit_mod_two_pow, Nat.testBit_div_two_pow]
  have hb : (x &&& mask w o n).toNat.testBit i = (x.toNat.testBit i &&
      decide (i < w ∧ o ≤ i ∧ i < o + n)) := by
    have := BitVec.getLsbD_and (x := x) (y := mask w o n) (i := i)
    rw [getLsbD_mask] at this
    exact this
  rw [hb]
  by_cases hi : o ≤ i
  · have e : i - o + o = i := by omega
    have e2 : i < o + n ↔ i - o < n := by omega
    rw [e]
    by_cases hn : i - o < n
    · have hw : i < w := by omega
      simp [hi, hn, hw, e2]
    · simp [hn, e2]
  · simp [hi]

end Bitfield

end AsyncLib
