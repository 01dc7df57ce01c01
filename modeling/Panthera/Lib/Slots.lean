/-
  Panthera.Lib.Slots — words of memory that are read, changed and written back.

  A patch is a slot and what becomes of the word in it. Where two slots are the same or do
  not overlap (`Clear`), a list of patches acts on each slot alone: the word there goes
  through the changes of its own patches, in their order (`read64_patch`), and a byte
  outside the slots stays (`patch_outside`).
-/

import Panthera.Lib.Ranges

namespace Panthera.Lib.Slots

open Lib.Bytes Lib.Ranges

structure Patch where
  slot : Nat
  change : UInt64 → UInt64

def Patch.apply (m : Mem) (p : Patch) : Mem := write64 m p.slot (p.change (read64 m p.slot))

def patch (ps : List Patch) (m : Mem) : Mem := ps.foldl Patch.apply m

/-- What the patches make of the word in slot `s`. -/
def changes (ps : List Patch) (s : Nat) (w : UInt64) : UInt64 := (ps.filter (·.slot = s)).foldl (fun w p => p.change w) w

/-- The same slot, or one that does not overlap. -/
def Clear (a b : Nat) : Prop := a = b ∨ a + 8 ≤ b ∨ b + 8 ≤ a

instance (a b : Nat) : Decidable (Clear a b) := inferInstanceAs (Decidable (_ ∨ _))

variable {ps qs : List Patch} {m m' : Mem} {s : Nat}

@[simp] theorem patch_nil : patch [] m = m := rfl

@[simp] theorem patch_cons (p : Patch) : patch (p :: ps) m = patch ps (p.apply m) := rfl

theorem patch_append : patch (ps ++ qs) m = patch qs (patch ps m) := List.foldl_append

@[simp] theorem changes_nil (w : UInt64) : changes [] s w = w := rfl

theorem changes_cons (p : Patch) (w : UInt64) : changes (p :: ps) s w = changes ps s (if p.slot = s then p.change w else w) := by
  unfold changes
  by_cases hp : p.slot = s
  · rw [List.filter_cons_of_pos (by simpa using hp), List.foldl_cons, if_pos hp]
  · rw [List.filter_cons_of_neg (by simpa using hp), if_neg hp]

theorem changes_append (w : UInt64) : changes (ps ++ qs) s w = changes qs s (changes ps s w) := by
  rw [changes, List.filter_append, List.foldl_append]
  rfl

/-- A slot without patches keeps its word. -/
theorem changes_of_notMem (h : ∀ p ∈ ps, p.slot ≠ s) (w : UInt64) : changes ps s w = w := by
  have hnone : ps.filter (·.slot = s) = [] := List.filter_eq_nil_iff.mpr fun p hp => by simpa using h p hp
  rw [changes, hnone, List.foldl_nil]

theorem read64_apply {p : Patch} (h : Clear s p.slot) :
    read64 (p.apply m) s = if p.slot = s then p.change (read64 m s) else read64 m s := by
  split
  · rename_i hs
    subst hs
    exact read64_write64 ..
  · rename_i hs
    refine read64_write64_disjoint ?_
    unfold Clear at h
    omega

theorem read64_patch (h : ∀ p ∈ ps, Clear s p.slot) : read64 (patch ps m) s = changes ps s (read64 m s) := by
  induction ps generalizing m with
  | nil => rfl
  | cons p ps ih =>
    obtain ⟨hp, hps⟩ := List.forall_mem_cons.mp h
    rw [patch_cons, ih hps, read64_apply hp, changes_cons]

theorem patch_outside {x : Nat} (h : ∀ p ∈ ps, x ∉ (⟨p.slot, 8⟩ : Range)) : patch ps m x = m x := by
  induction ps generalizing m with
  | nil => rfl
  | cons p ps ih =>
    obtain ⟨hp, hps⟩ := List.forall_mem_cons.mp h
    rw [patch_cons, ih hps]
    have hout : ¬ (p.slot ≤ x ∧ x < p.slot + 8) := hp
    exact write64_outside (by omega)

/-- A word is its bytes. -/
theorem sameOn_iff_read64 : SameOn ⟨s, 8⟩ m m' ↔ read64 m s = read64 m' s := by
  refine ⟨fun h => h.read64 ⟨Nat.le_refl _, Nat.le_refl _⟩, fun h x hx => ?_⟩
  obtain ⟨hle, hlt⟩ : s ≤ x ∧ x < s + 8 := hx
  have hnum : readLE 8 m s = readLE 8 m' s := by
    have := congrArg UInt64.toNat h
    rwa [read64, read64, UInt64.toNat_ofNat_of_lt' (readLE_lt m 8 s), UInt64.toNat_ofNat_of_lt' (readLE_lt m' 8 s)] at this
  have hbyte := readLE_injective hnum (x - s) (by omega)
  rwa [Nat.add_sub_cancel' hle] at hbyte

end Panthera.Lib.Slots
