/-
  Panthera.Libsystem.Leb128 — the six readers of LEB128 numbers
  (`build_shared_cache_real.c`: `read_uleb128`, `read_sleb128`;
  `panthera_dyld.cpp`: `readULEB128`, `readSLEB128`, `readULEB128Bounded`;
  `sources/panthera_extra_stubs.c`: `panthera_read_uleb128`).

  `uleb` and `sleb` are the shortest encodings. An unsigned one is a `Dyld.Number`, which the
  bounded reader reads; where it does, so do the others (`read_of_bounded`). A signed one is read
  with seven more bits added at every byte, also where they run over the word (`sleb_read`).
  `leb128_round_trip`: every reader gets the number back and stops behind it.
-/

import Mathlib
import Panthera.Dyld.TrieLookup
import Panthera.Libsystem.Rebases

namespace Panthera.Libsystem.Leb128

open Fixups

/-! ## Encodings -/

def uleb (n : Nat) : List UInt8 := if n < 128 then [UInt8.ofNat n] else UInt8.ofNat (n % 128 + 128) :: uleb (n / 128)

def sleb (m : Int) : List UInt8 :=
  if -64 ≤ m ∧ m < 64 then [UInt8.ofNat (m % 128).toNat] else UInt8.ofNat ((m % 128).toNat + 128) :: sleb (m / 128)
termination_by m.natAbs

/-! ## One byte -/

theorem digit_bits : ∀ d < 128, UInt8.ofNat d &&& 0x80 = 0 ∧ UInt8.ofNat (d + 128) &&& 0x80 ≠ 0 ∧
    (UInt8.ofNat d &&& 0x7F).toUInt64 = UInt64.ofNat d ∧ (UInt8.ofNat (d + 128) &&& 0x7F).toUInt64 = UInt64.ofNat d ∧
    (UInt8.ofNat d &&& 0x40 ≠ 0 ↔ 64 ≤ d) := by decide +kernel

section

variable {r : UInt64} {s : Nat} (hs : s < 64) (hr : r.toNat < 2 ^ s)

include hs hr

theorem or_shiftLeft_lt {d : Nat} (hd : d < 128) : (r ||| UInt64.ofNat d <<< UInt64.ofNat s).toNat < 2 ^ (s + 7) := by
  rw [Dyld.or_shiftLeft_eq_add hs hr, UInt64.toNat_add, UInt64.toNat_mul, Dyld.toNat_two_pow hs, Nat.add_mod_mod]
  have hdigit : (UInt64.ofNat d).toNat ≤ 127 := by rw [UInt64.toNat_ofNat']; omega
  have := Nat.mul_le_mul_right (2 ^ s) hdigit
  refine (Nat.mod_le _ _).trans_lt ?_
  rw [Nat.pow_add]
  omega

/-- The sign bits, where there is room for them. -/
theorem or_neg_shiftLeft : r ||| -(1 <<< UInt64.ofNat s) = r + -1 * UInt64.ofNat (2 ^ s) := by
  have hshift : ∀ x : UInt64, x <<< UInt64.ofNat s = x * UInt64.ofNat (2 ^ s) := by
    intro x
    simpa using Dyld.or_shiftLeft_eq_add (r := 0) hs (Nat.two_pow_pos s) x
  rw [← Dyld.or_shiftLeft_eq_add hs hr, hshift, hshift, UInt64.neg_mul]

end

/-! ## Unsigned numbers -/

theorem uleb_spec (n : Nat) : Dyld.Uleb (uleb n) n := by
  induction n using Nat.strongRecOn with
  | ind n ih =>
    rw [uleb]
    split_ifs with hsmall
    · have hb : (UInt8.ofNat n).toNat = n := UInt8.toNat_ofNat_of_lt' (hsmall.trans (by decide))
      have h := Dyld.Uleb.last (b := UInt8.ofNat n) (by omega)
      rwa [hb] at h
    · have hb : (UInt8.ofNat (n % 128 + 128)).toNat = n % 128 + 128 := UInt8.toNat_ofNat_of_lt' (by rw [UInt8.size]; omega)
      have h := Dyld.Uleb.more (b := UInt8.ofNat (n % 128 + 128)) (by omega) (ih (n / 128) (by omega))
      rwa [hb, show n % 128 + 128 - 128 + 128 * (n / 128) = n by omega] at h

theorem uleb_length (k : Nat) : ∀ {n : Nat}, n < 128 ^ (k + 1) → (uleb n).length ≤ k + 1 := by
  induction k with
  | zero =>
    intro n h
    rw [uleb, if_pos (by simpa using h), List.length_singleton]
  | succ k ih =>
    intro n h
    rw [uleb]
    split_ifs
    · simp
    · exact Nat.succ_le_succ (ih (Nat.div_lt_of_lt_mul (by rwa [← Nat.pow_succ'])))

/-- Where the bounded reader finds a number, so do the others. -/
theorem read_of_bounded {bytes : List UInt8} {v : Nat} (hu : Dyld.Uleb bytes v) (rest : List UInt8) : ∀ {r : UInt64} {s : Nat}
    {x : UInt64 × List UInt8}, Dyld.ulebBoundedFrom r s (bytes ++ rest) = some x →
      ulebFrom r s (bytes ++ rest) = some x ∧ ∀ k, bytes.length ≤ k → Rebases.ulebFrom r s k (bytes ++ rest) = x := by
  induction hu with
  | @last b hb =>
    intro r s x h
    have hclear := (Dyld.high_clear b).mpr hb
    rw [List.singleton_append, Dyld.ulebBoundedFrom, if_pos hclear] at h
    refine ⟨by rw [List.singleton_append, ulebFrom, if_pos hclear, h], fun k hk => ?_⟩
    obtain ⟨k, rfl⟩ := Nat.exists_eq_add_of_le' hk
    rw [List.singleton_append, List.length_singleton, Rebases.ulebFrom, if_pos hclear, Option.some.inj h]
  | @more b bytes v hb _ ih =>
    intro r s x h
    have hset : ¬ b &&& 0x80 = 0 := fun h => absurd ((Dyld.high_clear b).mp h) (by omega)
    rw [List.cons_append, Dyld.ulebBoundedFrom, if_neg hset] at h
    split_ifs at h
    obtain ⟨h1, h2⟩ := ih h
    refine ⟨by rw [List.cons_append, ulebFrom, if_neg hset, h1], fun k hk => ?_⟩
    obtain ⟨k, rfl⟩ := Nat.exists_eq_add_of_le' hk
    rw [List.cons_append, List.length_cons, ← Nat.add_assoc, Rebases.ulebFrom, if_neg hset, h2 _ (Nat.le_add_left _ _)]

/-! ## Signed numbers -/

section Signed

open scoped UInt64.CommRing

theorem sleb_read (rest : List UInt8) (m : Int) : ∀ (r : UInt64) (s : Nat), s < 64 → r.toNat < 2 ^ s →
    -2 ^ (63 - s) ≤ m → m < 2 ^ (63 - s) → slebFrom r s (sleb m ++ rest) = some (r + m * UInt64.ofNat (2 ^ s), rest) := by
  induction hk : m.natAbs using Nat.strongRecOn generalizing m with
  | ind k ih =>
    intro r s hs hr hlo hhi
    obtain ⟨d, hd⟩ : ∃ d : Nat, (m % 128).toNat = d := ⟨_, rfl⟩
    have hd' : d < 128 := by omega
    obtain ⟨hlast, hmore, hdigit, hdigit', hsign⟩ := digit_bits d hd'
    have hsum := Dyld.or_shiftLeft_eq_add hs hr (UInt64.ofNat d)
    have hlt := or_shiftLeft_lt hs hr hd'
    have hvalue : ∀ e : Int, m = d + 128 * e → r + UInt64.ofNat d * UInt64.ofNat (2 ^ s) + e * UInt64.ofNat (2 ^ (s + 7)) =
        r + m * UInt64.ofNat (2 ^ s) := by
      intro e he
      rw [he, Nat.pow_add, UInt64.ofNat_mul, show UInt64.ofNat d = (d : UInt64) from rfl, show UInt64.ofNat (2 ^ 7) = 128 from rfl]
      push_cast
      ring
    rw [sleb, hd]
    split_ifs with hsmall
    · rw [List.singleton_append, slebFrom, if_pos hlast, hdigit]
      by_cases hneg : s + 7 < 64 ∧ 64 ≤ d
      · rw [if_pos ⟨hneg.1, hsign.mpr hneg.2⟩, or_neg_shiftLeft hneg.1 hlt, hsum, ← hvalue (-1) (by omega), Int.cast_neg, Int.cast_one]
      · rw [if_neg fun h => hneg ⟨h.1, hsign.mp h.2⟩, hsum]
        obtain ⟨e, he, hzero⟩ : ∃ e : Int, m = d + 128 * e ∧ (e : UInt64) * UInt64.ofNat (2 ^ (s + 7)) = 0 := by
          by_cases hroom : s + 7 < 64
          · exact ⟨0, by omega, by rw [Int.cast_zero, zero_mul]⟩
          · -- the sign bits would stand behind the word
            refine ⟨m / 128, by omega, ?_⟩
            rw [show s + 7 = 64 + (s - 57) by omega, Nat.pow_add, UInt64.ofNat_mul, show UInt64.ofNat (2 ^ 64) = 0 from rfl, zero_mul, mul_zero]
        rw [← hvalue e he, hzero, UInt64.add_zero]
    · have hroom : 7 ≤ 63 - s := by
        by_contra hless
        have : (2 : Int) ^ (63 - s) ≤ 2 ^ 6 := pow_le_pow_right₀ (by decide) (by omega)
        omega
      have hpow : (2 : Int) ^ (63 - s) = 128 * 2 ^ (63 - (s + 7)) := by
        rw [show 63 - s = 7 + (63 - (s + 7)) by omega, pow_add]; rfl
      rw [List.cons_append, slebFrom, if_neg hmore, hdigit', ih _ (by omega) (m / 128) rfl _ (s + 7) (by omega) hlt (by omega) (by omega), hsum,
        hvalue (m / 128) (by omega)]

theorem read_signed (m : Int64) (rest : List UInt8) : slebFrom 0 0 (sleb m.toInt ++ rest) = some (m.toUInt64, rest) := by
  have hm : (m.toInt : UInt64) = m.toUInt64 := UInt64.toBitVec_inj.mp ((UInt64.toBitVec_intCast _).trans BitVec.ofInt_toInt)
  rw [sleb_read rest m.toInt 0 0 (by decide) (by decide) m.le_toInt m.toInt_lt, hm, UInt64.zero_add]
  exact congrArg (fun v => some (v, rest)) (UInt64.mul_one _)

end Signed

/-- Every reader gets the number back and stops behind it, whatever follows. The readers that know
    where the data ends are given the end of the encoding, or a later one. -/
theorem leb128_round_trip (n : UInt64) (m : Int64) (rest : List UInt8) :
    readUleb128 (uleb n.toNat ++ rest) = some (n, rest) ∧ readULEB128 (uleb n.toNat ++ rest) = some (n, rest) ∧
    Dyld.readULEB128Bounded (uleb n.toNat ++ rest) = some (n, rest) ∧
    (∀ k, Rebases.readUleb128 ((uleb n.toNat).length + k) (uleb n.toNat ++ rest) = (n, rest)) ∧
    readSleb128 (sleb m.toInt ++ rest) = some (m.toUInt64, rest) ∧ readSLEB128 (sleb m.toInt ++ rest) = some (m.toUInt64, rest) := by
  have hnumber : Dyld.Number (uleb n.toNat) n := ⟨uleb_spec _, uleb_length 9 (n.toNat_lt.trans (by decide))⟩
  have hbounded := Dyld.readULEB128Bounded_number hnumber rest
  obtain ⟨hread, hends⟩ := read_of_bounded hnumber.1 rest hbounded
  exact ⟨hread, hread, hbounded, fun k => hends _ (Nat.le_add_right _ _), read_signed m rest, read_signed m rest⟩

end Panthera.Libsystem.Leb128
