/-
  Panthera.Lib.Pages — rounding up to pages of 4096 bytes and to words of 4, in numbers and
  as machine words do it, by adding and clearing the low bits.
-/

import Mathlib.Tactic

namespace Panthera.Lib.Pages

def roundUp (n : Nat) : Nat := (n + 4095) / 4096 * 4096

theorem roundUp_mod (n : Nat) : roundUp n % 4096 = 0 := Nat.mul_mod_left _ _

theorem le_roundUp (n : Nat) : n ≤ roundUp n := by
  unfold roundUp
  omega

theorem roundUp_lt (n : Nat) : roundUp n < n + 4096 := by
  unfold roundUp
  omega

theorem roundUp_of_mod {n : Nat} (h : n % 4096 = 0) : roundUp n = n := by
  unfold roundUp
  omega

/-- Clearing the low `k` bits of a number of `w` bits. -/
theorem and_highMask {n w k : Nat} (h : n < 2 ^ w) : n &&& ((2 ^ (w - k) - 1) <<< k) = n / 2 ^ k * 2 ^ k := by
  rw [← Nat.shiftRight_eq_div_pow, ← Nat.shiftLeft_eq]
  refine Nat.eq_of_testBit_eq fun i => ?_
  rw [Nat.testBit_and, Nat.testBit_shiftLeft, Nat.testBit_shiftLeft, Nat.testBit_two_pow_sub_one, Nat.testBit_shiftRight]
  by_cases hk : k ≤ i
  · have hi : k + (i - k) = i := by omega
    by_cases hw : i < w
    · simp [hk, hi, show i - k < w - k by omega]
    · have hlt : n < 2 ^ i := Nat.lt_of_lt_of_le h (Nat.pow_le_pow_right (by decide) (by omega))
      simp [hi, Nat.testBit_lt_two_pow hlt]
  · simp [hk]

theorem toNat_and_pageMask (x : UInt64) : (x &&& ~~~(4095 : UInt64)).toNat = x.toNat / 4096 * 4096 := by
  have hmask : (~~~(4095 : UInt64)).toNat = (2 ^ (64 - 12) - 1) <<< 12 := by decide
  rw [UInt64.toNat_and, hmask, and_highMask x.toNat_lt]
  norm_num

theorem toNat_roundUp {x : UInt64} (h : x.toNat + 4095 < 2 ^ 64) : ((x + 4095) &&& ~~~(4095 : UInt64)).toNat = roundUp x.toNat := by
  rw [toNat_and_pageMask, UInt64.toNat_add, show (4095 : UInt64).toNat = 4095 from rfl, Nat.mod_eq_of_lt h]
  rfl

/-! ## Words of 4 bytes -/

def roundUp4 (n : Nat) : Nat := (n + 3) / 4 * 4

theorem le_roundUp4 (n : Nat) : n ≤ roundUp4 n := by
  unfold roundUp4
  omega

theorem toNat_roundUp4 {x : UInt32} (h : x.toNat + 3 < 2 ^ 32) : ((x + 3) &&& ~~~(3 : UInt32)).toNat = roundUp4 x.toNat := by
  have hmask : (~~~(3 : UInt32)).toNat = (2 ^ (32 - 2) - 1) <<< 2 := by decide
  rw [UInt32.toNat_and, hmask, and_highMask (UInt32.toNat_lt _), UInt32.toNat_add, show (3 : UInt32).toNat = 3 from rfl,
    Nat.mod_eq_of_lt h]
  rfl

end Panthera.Lib.Pages
