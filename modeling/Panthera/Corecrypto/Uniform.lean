/-
  Panthera.Corecrypto.Uniform — random numbers below a bound
  (`panthera_corecrypto.c`: `panthera_random_uniform`).

  Words of the generator at or above a multiple of the bound are thrown away. The multiple is
  computed from `UINT64_MAX`, not from 2^64, so for a power of two the last block is thrown away
  too; what is left is whole blocks and at least half of the words (`random_uniform_unbiased`).
-/

import Mathlib

namespace Panthera.Corecrypto

open Finset

def uint64Max : UInt64 := 0xFFFFFFFFFFFFFFFF

def limit (bound : UInt64) : UInt64 := uint64Max - uint64Max % bound

/-- The loop, on the words that the generator gives; `none` while it has not ended. -/
def randomRounds (bound : UInt64) : List UInt64 → Option UInt64
  | [] => none
  | random :: words => if limit bound ≤ random then randomRounds bound words else some (random % bound)

def randomUniform (bound : UInt64) (words : List UInt64) : Option UInt64 := if bound = 0 then some 0 else randomRounds bound words

/-- The words that end the loop. -/
def accepted (bound : UInt64) : Finset UInt64 := univ.filter (· < limit bound)

section

variable {bound : UInt64}

theorem toNat_limit (bound : UInt64) : (limit bound).toNat = bound.toNat * ((2 ^ 64 - 1) / bound.toNat) := by
  have hmax : uint64Max.toNat = 2 ^ 64 - 1 := rfl
  have hle : uint64Max % bound ≤ uint64Max := by
    rw [UInt64.le_iff_toNat_le, UInt64.toNat_mod]
    exact Nat.mod_le _ _
  have := Nat.div_add_mod (2 ^ 64 - 1) bound.toNat
  rw [limit, UInt64.toNat_sub_of_le _ _ hle, UInt64.toNat_mod, hmax]
  omega

theorem two_pow_le_limit (hb : 1 ≤ bound) : 2 ^ 63 ≤ (limit bound).toNat := by
  have hpos : 1 ≤ bound.toNat := UInt64.le_iff_toNat_le.mp hb
  have hlt := bound.toNat_lt
  have hdiv := Nat.div_add_mod (2 ^ 64 - 1) bound.toNat
  have hmod := Nat.mod_lt (2 ^ 64 - 1) hpos
  rw [toNat_limit]
  by_cases hsmall : bound.toNat ≤ 2 ^ 63
  · omega
  · -- one block, which is more than half of the words
    have hone := Nat.mul_le_mul_left bound.toNat ((Nat.one_le_div_iff hpos).mpr (by omega : bound.toNat ≤ 2 ^ 64 - 1))
    omega

/-- Words are counted as the numbers that they are. -/
theorem card_accepted (bound : UInt64) (P : Nat → Prop) [DecidablePred P] :
    ((accepted bound).filter fun r => P r.toNat).card = Nat.count P (limit bound).toNat := by
  have hlt := (limit bound).toNat_lt
  rw [Nat.count_eq_card_filter_range]
  refine card_nbij' UInt64.toNat UInt64.ofNat ?_ ?_ ?_ ?_
  · intro r hr
    simpa [accepted, UInt64.lt_iff_toNat_lt] using hr
  · intro x hx
    simp only [coe_filter, mem_range, Set.mem_ofPred_eq] at hx
    simpa [accepted, UInt64.lt_iff_toNat_lt, Nat.mod_eq_of_lt (hx.1.trans hlt)] using hx
  · intro r _
    exact UInt64.ofNat_toNat
  · intro x hx
    simp only [coe_filter, mem_range, Set.mem_ofPred_eq] at hx
    exact UInt64.toNat_ofNat_of_lt' (hx.1.trans hlt)

theorem card_preimages (hb : 1 ≤ bound) {j : UInt64} (hj : j < bound) :
    ((accepted bound).filter (· % bound = j)).card = (2 ^ 64 - 1) / bound.toNat := by
  have hpos : 0 < bound.toNat := UInt64.le_iff_toNat_le.mp hb
  have hj' := UInt64.lt_iff_toNat_lt.mp hj
  have hresult : ∀ r : UInt64, r % bound = j ↔ r.toNat ≡ j.toNat [MOD bound.toNat] := by
    intro r
    rw [← UInt64.toNat_inj, UInt64.toNat_mod, Nat.ModEq, Nat.mod_eq_of_lt hj']
  simp only [hresult]
  rw [card_accepted bound fun x => x ≡ j.toNat [MOD bound.toNat], Nat.count_modEq_card _ hpos, toNat_limit, Nat.mul_mod_right,
    if_neg (Nat.not_lt_zero _), Nat.mul_div_cancel_left _ hpos, Nat.add_zero]

end

/-! ## A generator that is uniform and independent -/

/-- So many words of it. -/
noncomputable def drawn : Nat → PMF (List UInt64)
  | 0 => PMF.pure []
  | n + 1 => (PMF.uniformOfFintype UInt64).bind fun r => (drawn n).map (r :: ·)

/-- What comes of so many rounds. -/
noncomputable def law (bound : UInt64) (n : Nat) : PMF (Option UInt64) := (drawn n).map (randomUniform bound)

theorem card_uint64 : Fintype.card UInt64 = 2 ^ 64 :=
  (Fintype.card_congr ⟨UInt64.toFin, UInt64.ofFin, fun _ => rfl, fun _ => rfl⟩).trans (Fintype.card_fin _)

/-- One round: the words that give the result, and those after which it is left to the others. -/
theorem law_succ {bound : UInt64} (hb : bound ≠ 0) (n : Nat) (o : Option UInt64) : law bound (n + 1) o =
    (2 ^ 64)⁻¹ * (((accepted bound).filter fun r => o = some (r % bound)).card + (accepted bound)ᶜ.card * law bound n o) := by
  have hround : ∀ r, (drawn n).map (randomUniform bound ∘ (r :: ·)) =
      if r ∈ accepted bound then PMF.pure (some (r % bound)) else law bound n := by
    intro r
    by_cases hr : r < limit bound
    · have hend : randomUniform bound ∘ (r :: ·) = Function.const _ (some (r % bound)) := by
        funext words
        simp [randomUniform, hb, randomRounds, UInt64.not_le.mpr hr]
      rw [if_pos (by simpa [accepted] using hr), hend]
      exact PMF.map_const _ _
    · have hnext : randomUniform bound ∘ (r :: ·) = randomUniform bound := by
        funext words
        simp [randomUniform, hb, randomRounds, UInt64.not_lt.mp hr]
      rw [if_neg (by simpa [accepted] using hr), hnext, law]
  have hsum : law bound (n + 1) o = ∑ r : UInt64, (2 ^ 64)⁻¹ *
      if r ∈ accepted bound then (if o = some (r % bound) then 1 else 0) else law bound n o := by
    rw [law, drawn, PMF.map_bind, PMF.bind_apply, tsum_fintype]
    refine sum_congr rfl fun r _ => ?_
    rw [PMF.map_comp, hround, PMF.uniformOfFintype_apply, card_uint64, Nat.cast_pow, Nat.cast_ofNat]
    by_cases hr : r ∈ accepted bound
    · rw [if_pos hr, if_pos hr, PMF.pure_apply]
      congr
    · rw [if_neg hr, if_neg hr]
  rw [hsum, ← mul_sum, sum_ite, sum_boole, sum_const, nsmul_eq_mul, filter_mem_eq_inter, univ_inter, filter_not, filter_mem_eq_inter, univ_inter,
    ← compl_eq_univ_sdiff]

/-- Every bound: each result has the same number of accepted words, which are at least half of all;
    so with such a generator all results are equally likely, however many rounds there are, and
    the loop is not at its end after `n` rounds with a probability of at most 1 in 2 ^ n. -/
theorem random_uniform_unbiased (bound : UInt64) (hb : 1 ≤ bound) :
    (∀ j < bound, ((accepted bound).filter (· % bound = j)).card = (2 ^ 64 - 1) / bound.toNat) ∧ 2 ^ 63 ≤ (accepted bound).card ∧
    ∀ n, (∀ i < bound, ∀ j < bound, law bound n (some i) = law bound n (some j)) ∧ (∀ j, bound ≤ j → law bound n (some j) = 0) ∧
      law bound n none ≤ (1 / 2) ^ n := by
  have hpos : bound ≠ 0 := by
    rintro rfl
    exact absurd hb (by decide)
  have hhalf : 2 ^ 63 ≤ (accepted bound).card := by
    have hall := card_accepted bound fun _ => True
    rw [filter_true, Nat.count_true] at hall
    exact hall ▸ two_pow_le_limit hb
  refine ⟨fun j hj => card_preimages hb hj, hhalf, fun n => ?_⟩
  induction n with
  | zero =>
    have hstart : law bound 0 = PMF.pure none := by simp [law, drawn, PMF.pure_map, randomUniform, hpos, randomRounds]
    simp [hstart]
  | succ n ih =>
    obtain ⟨hsame, hout, hnone⟩ := ih
    refine ⟨fun i hi j hj => ?_, fun j hj => ?_, ?_⟩
    · simp only [law_succ hpos, hsame i hi j hj, Option.some.injEq, eq_comm (a := i), eq_comm (a := j), card_preimages hb hi, card_preimages hb hj]
    · have hempty : (accepted bound).filter (fun r => some j = some (r % bound)) = ∅ := by
        refine filter_eq_empty_iff.mpr fun r _ h => ?_
        rw [Option.some.inj h] at hj
        exact absurd (UInt64.mod_lt r (UInt64.pos_iff_ne_zero.mpr hpos)) (UInt64.not_lt.mpr hj)
      rw [law_succ hpos, hout j hj, hempty, card_empty, Nat.cast_zero, mul_zero, add_zero, mul_zero]
    · have hrejected : (accepted bound)ᶜ.card ≤ 2 ^ 63 := by
        rw [card_compl, card_uint64]
        omega
      have hweight : (2 ^ 64 : ENNReal)⁻¹ * 2 ^ 63 = 1 / 2 := by
        rw [pow_succ, ENNReal.mul_inv (by simp) (by simp), mul_right_comm, ENNReal.inv_mul_cancel (by simp) (by simp), one_mul, one_div]
      have hempty : (accepted bound).filter (fun r => none = some (r % bound)) = ∅ := filter_eq_empty_iff.mpr fun _ _ h => by cases h
      calc law bound (n + 1) none = (2 ^ 64)⁻¹ * ((accepted bound)ᶜ.card * law bound n none) := by
            rw [law_succ hpos, hempty, card_empty, Nat.cast_zero, zero_add]
        _ ≤ (2 ^ 64)⁻¹ * (2 ^ 63 * (1 / 2) ^ n) := by gcongr; exact_mod_cast hrejected
        _ = (1 / 2) ^ (n + 1) := by rw [← mul_assoc, hweight, pow_succ']

theorem random_uniform_six : ((accepted 6).filter (· % 6 = 2)).card = (2 ^ 64 - 1) / 6 := (random_uniform_unbiased 6 (by decide)).1 2 (by decide)

end Panthera.Corecrypto
