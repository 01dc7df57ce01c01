/-
  Panthera.Lib.ArraySet — a set kept in an array.

  Elements are inserted at the end unless the array has them, erased at their first place, and the
  whole array may be replaced by a list as it is. The array stands for a set as long as no element
  is in it twice; a list with repetitions breaks that, since one erasure then leaves an element behind.

  `Epoch` is what a run of operations since the last replacement amounts to: the list that came in,
  and the elements erased since. `mem_iff_mem_iff` says for a whole run, and each element, when array
  and set agree: unless the element should be gone and was erased less often than the list has it.
-/

import Mathlib.Data.Finset.Basic
import Mathlib.Data.List.Count

namespace Panthera.Lib.ArraySet

variable {α : Type*} [BEq α] [LawfulBEq α] [DecidableEq α]

inductive Op (α : Type*) where
  | insert (a : α)
  | erase (a : α)
  | replace (l : List α)

def Op.onArray (array : List α) : Op α → List α
  | insert a => if a ∈ array then array else array ++ [a]
  | erase a => array.erase a
  | replace l => l

def Op.onSet (set : Finset α) : Op α → Finset α
  | insert a => Insert.insert a set
  | erase a => set.erase a
  | replace l => l.toFinset

/-- The list that last replaced the array, and what was erased since. -/
structure Epoch (α : Type*) where
  base : List α := []
  erased : List α := []

def Op.onEpoch (epoch : Epoch α) : Op α → Epoch α
  | insert _ => epoch
  | erase a => { epoch with erased := a :: epoch.erased }
  | replace l => { base := l }

def array (ops : List (Op α)) : List α := ops.foldl Op.onArray []

def set (ops : List (Op α)) : Finset α := ops.foldl Op.onSet ∅

def epoch (ops : List (Op α)) : Epoch α := ops.foldl Op.onEpoch {}

/-- How often the array has the element: what the list had and is not erased yet, and after that once or not at all. -/
structure Counts (array : List α) (set : Finset α) (epoch : Epoch α) (a : α) : Prop where
  surplus : epoch.erased.count a < epoch.base.count a → array.count a = epoch.base.count a - epoch.erased.count a
  settled : epoch.base.count a ≤ epoch.erased.count a → array.count a = if a ∈ set then 1 else 0
  /-- What the list had is in the set until it is erased. -/
  kept : epoch.erased.count a = 0 → 0 < epoch.base.count a → a ∈ set

theorem count_insert (l : List α) (a b : α) :
    ((Op.insert b).onArray l).count a = if a = b then max 1 (l.count a) else l.count a := by
  simp only [Op.onArray]
  split
  · rename_i hmem
    split
    · rename_i hab
      have hpos : 0 < l.count a := List.count_pos_iff.mpr (hab ▸ hmem)
      omega
    · rfl
  · rename_i hmem
    split
    · rename_i hab
      subst hab
      simp [List.count_eq_zero_of_not_mem hmem]
    · rename_i hab
      simp [List.count_append, Ne.symm hab]

theorem Counts.step {l : List α} {s : Finset α} {e : Epoch α} {a : α} (h : Counts l s e a) (op : Op α) :
    Counts (op.onArray l) (op.onSet s) (op.onEpoch e) a := by
  obtain ⟨hsurplus, hsettled, hkept⟩ := h
  cases op with
  | insert b =>
    by_cases hab : a = b
    · subst hab
      have hmem : a ∈ (Op.insert a).onSet s := Finset.mem_insert_self a s
      refine ⟨fun he => ?_, fun he => ?_, fun _ _ => hmem⟩
      · rw [count_insert, if_pos rfl, hsurplus he]
        exact max_eq_right (Nat.sub_pos_of_lt he)
      · rw [count_insert, if_pos rfl, hsettled he, if_pos hmem]
        split <;> rfl
    · have hmem : a ∈ (Op.insert b).onSet s ↔ a ∈ s := Finset.mem_insert.trans (or_iff_right hab)
      refine ⟨fun he => ?_, fun he => ?_, fun he hb => hmem.mpr (hkept he hb)⟩
      · rw [count_insert, if_neg hab, hsurplus he]
        rfl
      · rw [count_insert, if_neg hab, hsettled he]
        simp only [hmem]
  | erase b =>
    by_cases hab : a = b
    · subst hab
      have hmem : a ∉ (Op.erase a).onSet s := Finset.notMem_erase a s
      have hcount : ((Op.erase a).onArray l).count a = l.count a - 1 := List.count_erase_self
      have herased : ((Op.erase a).onEpoch e).erased.count a = e.erased.count a + 1 := List.count_cons_self
      refine ⟨fun he => ?_, fun he => ?_, fun he => ?_⟩
      · rw [herased] at he ⊢
        rw [hcount, hsurplus (Nat.lt_of_succ_lt he), Nat.sub_sub]
        rfl
      · -- the last one that the list had, or the one that was inserted since
        rw [herased] at he
        rw [hcount, if_neg hmem]
        rcases Nat.lt_or_ge (e.erased.count a) (e.base.count a) with hlt | hle
        · have hlast : e.base.count a = e.erased.count a + 1 := Nat.le_antisymm he hlt
          rw [hsurplus hlt, hlast, Nat.add_sub_cancel_left]
        · rw [hsettled hle]
          split <;> rfl
      · rw [herased] at he
        cases he
    · have hmem : a ∈ (Op.erase b).onSet s ↔ a ∈ s := Finset.mem_erase.trans (and_iff_right hab)
      have hcount : ((Op.erase b).onArray l).count a = l.count a := List.count_erase_of_ne hab
      have herased : ((Op.erase b).onEpoch e).erased.count a = e.erased.count a := List.count_cons_of_ne (Ne.symm hab)
      refine ⟨fun he => ?_, fun he => ?_, fun he hb => ?_⟩
      · rw [herased] at he ⊢
        rw [hcount, hsurplus he]
        rfl
      · rw [herased] at he
        rw [hcount, hsettled he]
        simp only [hmem]
      · rw [herased] at he
        exact hmem.mpr (hkept he hb)
  | replace l' =>
    refine ⟨fun _ => rfl, fun he => ?_, fun _ hb => List.mem_toFinset.mpr (List.count_pos_iff.mp hb)⟩
    have hnone : l'.count a = 0 := Nat.le_zero.mp he
    have hmem : a ∉ (Op.replace l').onSet s := fun hmem => List.count_eq_zero.mp hnone (List.mem_toFinset.mp hmem)
    rw [if_neg hmem]
    exact hnone

/-- The counts, after every run of operations. -/
theorem counts (ops : List (Op α)) (a : α) : Counts (array ops) (set ops) (epoch ops) a := by
  induction ops using List.reverseRecOn with
  | nil => exact ⟨fun he => absurd he (Nat.lt_irrefl 0), fun _ => rfl, fun _ hb => absurd hb (Nat.lt_irrefl 0)⟩
  | append_singleton ops op ih =>
    have h := ih.step op
    simpa only [array, set, epoch, List.foldl_append, List.foldl_cons, List.foldl_nil] using h

/-- An element is where it should be unless it should be gone and was erased less often than the list had it. -/
theorem mem_iff_mem_iff (ops : List (Op α)) (a : α) :
    (a ∈ array ops ↔ a ∈ set ops) ↔ (a ∉ set ops → (epoch ops).base.count a ≤ (epoch ops).erased.count a) := by
  obtain ⟨hsurplus, hsettled, -⟩ := counts ops a
  rw [← List.count_pos_iff]
  rcases Nat.lt_or_ge ((epoch ops).erased.count a) ((epoch ops).base.count a) with hlt | hle
  · rw [hsurplus hlt, iff_true_left (Nat.sub_pos_of_lt hlt)]
    refine ⟨fun h hn => absurd h hn, fun h => ?_⟩
    by_contra hn
    exact absurd (h hn) (Nat.not_le.mpr hlt)
  · rw [hsettled hle]
    refine ⟨fun _ _ => hle, fun _ => ?_⟩
    split <;> simp_all

end Panthera.Lib.ArraySet
