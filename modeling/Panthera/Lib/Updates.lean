/-
  Panthera.Lib.Updates — lists of writes to a function.

  A write is a key with its new value, and later writes win. `writeAll_flatMap_perm_iff` says when
  the order of several groups of writes does not matter: when no two of them disagree on a key.
-/

import Mathlib.Data.List.Induction
import Mathlib.Data.List.Nodup
import Mathlib.Data.List.Perm.Basic
import Mathlib.Logic.Function.Basic

namespace Panthera.Lib.Updates

variable {κ β α : Type*} [DecidableEq κ]

def writeAll (ws : List (κ × β)) (f : κ → β) : κ → β := ws.foldl (fun f w => Function.update f w.1 w.2) f

variable {ws ws' : List (κ × β)} {f : κ → β} {k : κ} {v : β}

@[simp] theorem writeAll_nil : writeAll [] f = f := rfl

@[simp] theorem writeAll_cons (w : κ × β) : writeAll (w :: ws) f = writeAll ws (Function.update f w.1 w.2) := rfl

theorem writeAll_append : writeAll (ws ++ ws') f = writeAll ws' (writeAll ws f) := List.foldl_append

/-- A key that is not written keeps its value. -/
theorem writeAll_of_notMem (h : ∀ v, (k, v) ∉ ws) : writeAll ws f k = f k := by
  induction ws generalizing f with
  | nil => rfl
  | cons w ws ih =>
    obtain ⟨hw, hrest⟩ : k ≠ w.1 ∧ ∀ v, (k, v) ∉ ws := by
      refine ⟨?_, fun v hv => h v (List.mem_cons_of_mem w hv)⟩
      rintro rfl
      exact h w.2 List.mem_cons_self
    rw [writeAll_cons, ih hrest, Function.update_of_ne hw]

/-- A key that is written holds one of the values written to it. -/
theorem writeAll_mem (h : (k, v) ∈ ws) : (k, writeAll ws f k) ∈ ws := by
  induction ws generalizing f v with
  | nil => cases h
  | cons w ws ih =>
    rw [writeAll_cons]
    by_cases hrest : ∃ v', (k, v') ∈ ws
    · obtain ⟨v', hv'⟩ := hrest
      exact List.mem_cons_of_mem w (ih hv')
    · rcases List.mem_cons.mp h with rfl | hv
      · rw [writeAll_of_notMem (not_exists.mp hrest), Function.update_self]
        exact List.mem_cons_self
      · exact absurd ⟨v, hv⟩ hrest

theorem writeAll_eq (h : (k, v) ∈ ws) (huniq : ∀ v', (k, v') ∈ ws → v' = v) : writeAll ws f k = v :=
  huniq _ (writeAll_mem h)

theorem writeAll_congr {g : κ → β} (h : f k = g k) : writeAll ws f k = writeAll ws g k := by
  induction ws generalizing f g with
  | nil => exact h
  | cons w ws ih =>
    rw [writeAll_cons, writeAll_cons]
    refine ih ?_
    by_cases hw : k = w.1
    · subst hw
      rw [Function.update_self, Function.update_self]
    · rw [Function.update_of_ne hw, Function.update_of_ne hw, h]

/-- The value that is written to a key last. -/
def lastWrite (ws : List (κ × β)) (k : κ) : Option β := (ws.reverse.find? (·.1 = k)).map Prod.snd

theorem writeAll_apply (ws : List (κ × β)) (f : κ → β) (k : κ) : writeAll ws f k = (lastWrite ws k).getD (f k) := by
  induction ws using List.reverseRecOn with
  | nil => rfl
  | append_singleton ws w ih =>
    rw [writeAll_append, writeAll_cons, writeAll_nil, lastWrite, List.reverse_append, List.reverse_singleton, List.singleton_append,
      List.find?_cons]
    by_cases hk : k = w.1
    · subst hk
      simp
    · rw [Function.update_of_ne hk, ih]
      simp [lastWrite, Ne.symm hk]

theorem writeAll_eq_self_iff : writeAll ws f = f ↔ ∀ k v, lastWrite ws k = some v → f k = v := by
  rw [funext_iff]
  apply forall_congr'
  intro k
  rw [writeAll_apply]
  cases lastWrite ws k with
  | none => simp
  | some v => simp [eq_comm]

/-- Writes of different keys may be made in any order. -/
theorem writeAll_perm (hkeys : (ws.map Prod.fst).Nodup) (h : ws'.Perm ws) : writeAll ws' f = writeAll ws f := by
  have huniq : ∀ {k v v'}, (k, v) ∈ ws → (k, v') ∈ ws → v = v' := fun hv hv' =>
    congrArg Prod.snd (List.inj_on_of_nodup_map hkeys hv hv' rfl)
  funext k
  by_cases hk : ∃ v, (k, v) ∈ ws
  · obtain ⟨v, hv⟩ := hk
    rw [writeAll_eq hv fun v' hv' => huniq hv' hv, writeAll_eq (h.mem_iff.mpr hv) fun v' hv' => huniq (h.mem_iff.mp hv') hv]
  · rw [writeAll_of_notMem (not_exists.mp hk), writeAll_of_notMem fun v hv => hk ⟨v, h.mem_iff.mp hv⟩]

/-- The groups of writes `D` may be made in any order exactly if no two of them disagree. -/
theorem writeAll_flatMap_perm_iff (K : κ → Prop) (D : α → List (κ × β)) (l : List α)
    (hself : ∀ a ∈ l, ∀ k v v', (k, v) ∈ D a → (k, v') ∈ D a → v = v') :
    (∀ l' : List α, l'.Perm l → ∀ k, K k → writeAll (l'.flatMap D) f k = writeAll (l.flatMap D) f k) ↔
      ∀ a ∈ l, ∀ b ∈ l, ∀ k, K k → ∀ v v', (k, v) ∈ D a → (k, v') ∈ D b → v = v' := by
  classical
  constructor
  · intro horder
    -- the group that is made last decides
    have hlast : ∀ a ∈ l, ∀ k, K k → ∀ v, (k, v) ∈ D a → writeAll (l.flatMap D) f k = v := by
      intro a ha k hk v hv
      have hperm : (l.erase a ++ [a]).Perm l := List.perm_append_singleton a _ |>.trans (List.perm_cons_erase ha).symm
      rw [← horder _ hperm k hk, List.flatMap_append, writeAll_append, List.flatMap_singleton]
      exact writeAll_eq hv fun v' hv' => hself a ha k v' v hv' hv
    intro a ha b hb k hk v v' hv hv'
    rw [← hlast a ha k hk v hv, hlast b hb k hk v' hv']
  · intro hagree l' hperm k hk
    have hmem : ∀ v, (k, v) ∈ l'.flatMap D ↔ (k, v) ∈ l.flatMap D := fun v => (hperm.flatMap_right D).mem_iff
    by_cases hwritten : ∃ v, (k, v) ∈ l.flatMap D
    · obtain ⟨v, hv⟩ := hwritten
      have huniq : ∀ v', (k, v') ∈ l.flatMap D → v' = v := by
        intro v' hv'
        obtain ⟨a, ha, hva⟩ := List.mem_flatMap.mp hv'
        obtain ⟨b, hb, hvb⟩ := List.mem_flatMap.mp hv
        exact hagree a ha b hb k hk v' v hva hvb
      rw [writeAll_eq hv huniq, writeAll_eq ((hmem v).mpr hv) fun v' hv' => huniq v' ((hmem v').mp hv')]
    · rw [writeAll_of_notMem (not_exists.mp hwritten), writeAll_of_notMem fun v hv => hwritten ⟨v, (hmem v).mp hv⟩]

end Panthera.Lib.Updates
