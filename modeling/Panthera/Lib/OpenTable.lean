/-
  Panthera.Lib.OpenTable — an open-addressed table with linear probing.

  A table is `cap` slots, each free or holding a key and a value. `probe` walks the
  slots from a key's home, wrapping at the end, to the first slot that is free or holds
  the key. Nothing is ever deleted.

  The one invariant is `Probed`: every stored key is found by its own probe. Writing a
  key where its probe ends keeps it (`Probed.set`), so a table so written is a finite
  map (`lookup_set_self`, `lookup_set_other`); a probe fails only when every slot is
  taken (`probe_isSome`).
-/

import Mathlib.Tactic

namespace Panthera.Lib.OpenTable

variable {κ β : Type} [DecidableEq κ]

abbrev Table (κ β : Type) := Nat → Option (κ × β)

def Table.empty : Table κ β := fun _ => none

/-- The slot after `s`. -/
def next (cap s : Nat) : Nat := if s + 1 = cap then 0 else s + 1

/-- The first slot, of the `fuel` from `s` on, that is free or holds `k`. -/
def probe (cap : Nat) (t : Table κ β) (k : κ) : Nat → Nat → Option Nat
  | 0, _ => none
  | fuel + 1, s =>
    match t s with
    | none => some s
    | some (k', _) => if k' = k then some s else probe cap t k fuel (next cap s)

def lookup (cap : Nat) (home : κ → Nat) (t : Table κ β) (k : κ) : Option β :=
  (probe cap t k cap (home k)).bind fun s => (t s).map (·.2)

def set (t : Table κ β) (s : Nat) (k : κ) (v : β) : Table κ β := fun x => if x = s then some (k, v) else t x

variable {k : κ} {s : Nat}

section Probe

variable {cap : Nat} {t : Table κ β}

/-- Where a probe ends, there is nothing or the key. -/
theorem probe_slot : ∀ {fuel s e : Nat}, probe cap t k fuel s = some e → t e = none ∨ ∃ v, t e = some (k, v) := by
  intro fuel
  induction fuel with
  | zero => intro s e h; cases h
  | succ fuel ih =>
    intro s e h
    unfold probe at h
    split at h
    · cases h; exact .inl ‹_›
    · split at h
      · rename_i k' v hs hk
        cases h
        exact .inr ⟨v, hk ▸ hs⟩
      · exact ih h

theorem probe_lt (hcap : 0 < cap) : ∀ {fuel s e : Nat}, s < cap → probe cap t k fuel s = some e → e < cap := by
  intro fuel
  induction fuel with
  | zero => intro s e _ h; cases h
  | succ fuel ih =>
    intro s e hs h
    unfold probe at h
    split at h
    · cases h; exact hs
    · split at h
      · cases h; exact hs
      · refine ih ?_ h
        unfold next
        split <;> omega

/-- A probe that fails has passed taken slots only. -/
theorem probe_none : ∀ {fuel s : Nat}, s < cap → probe cap t k fuel s = none → ∀ j < fuel, (t ((s + j) % cap)).isSome := by
  intro fuel
  induction fuel with
  | zero => intro s _ _ j hj; omega
  | succ fuel ih =>
    intro s hs h j hj
    unfold probe at h
    split at h
    · cases h
    · rename_i k' v hkv
      split at h
      · cases h
      · have hn : next cap s < cap := by unfold next; split <;> omega
        cases j with
        | zero => simp [Nat.mod_eq_of_lt hs, hkv]
        | succ j =>
          have := ih hn h j (by omega)
          have he : (next cap s + j) % cap = (s + (j + 1)) % cap := by
            unfold next
            split
            · rename_i hwrap
              rw [Nat.zero_add, show s + (j + 1) = cap + j by omega, Nat.add_mod_left]
            · congr 1
              omega
          rwa [he] at this

/-- A probe of the whole table finds a slot unless every one is taken. -/
theorem probe_isSome {f : Nat} (hs : s < cap) (hf : f < cap) (hfree : t f = none) : (probe cap t k cap s).isSome := by
  rcases h : probe cap t k cap s with _ | e
  · -- slot `f` is one of the `cap` slots from `s` on
    have hj : (s + (f + cap - s) % cap) % cap = f := by
      by_cases hle : s ≤ f
      · rw [show f + cap - s = f - s + cap by omega, Nat.add_mod_right, Nat.mod_eq_of_lt (by omega : f - s < cap),
          Nat.add_sub_cancel' hle, Nat.mod_eq_of_lt hf]
      · rw [Nat.mod_eq_of_lt (by omega : f + cap - s < cap), show s + (f + cap - s) = f + cap by omega,
          Nat.add_mod_right, Nat.mod_eq_of_lt hf]
    have := probe_none hs h ((f + cap - s) % cap) (Nat.mod_lt _ (by omega))
    rw [hj, hfree] at this
    exact this
  · rfl

end Probe

/-! ## Stored keys are found -/

def Probed (cap : Nat) (home : κ → Nat) (t : Table κ β) : Prop :=
  ∀ s k v, t s = some (k, v) → probe cap t k cap (home k) = some s

section Map

variable {cap : Nat} {home : κ → Nat} {t : Table κ β}

theorem probed_empty : Probed cap home (Table.empty : Table κ β) := by
  intro s k v h
  cases h

variable {v : β}

/-- Writing at the end of a probe of `k` turns no other key's probe aside. -/
theorem probe_set {k' : κ} (hne : k' ≠ k) (hs : t s = none ∨ ∃ w, t s = some (k, w)) :
    ∀ {fuel a e : Nat}, probe cap t k' fuel a = some e → (∃ w, t e = some (k', w)) →
      probe cap (set t s k v) k' fuel a = some e := by
  intro fuel
  induction fuel with
  | zero => intro a e h; cases h
  | succ fuel ih =>
    intro a e h he
    unfold probe at h ⊢
    by_cases ha : a = s
    · subst ha
      simp only [set, if_true, if_neg hne.symm]
      rcases hs with hs | ⟨w, hs⟩
      · rw [hs] at h
        obtain ⟨w, hw⟩ := he
        cases h
        rw [hs] at hw
        cases hw
      · rw [hs] at h
        simp only [if_neg hne.symm] at h
        exact ih h he
    · simp only [set, if_neg ha]
      split at h
      · exact h
      · split at h
        · rename_i hk
          rw [if_pos hk]
          exact h
        · rename_i hk
          rw [if_neg hk]
          exact ih h he

theorem probe_set_self : ∀ {fuel a s : Nat}, probe cap t k fuel a = some s → probe cap (set t s k v) k fuel a = some s := by
  intro fuel
  induction fuel with
  | zero => intro a s h; cases h
  | succ fuel ih =>
    intro a s h
    unfold probe at h ⊢
    by_cases ha : a = s
    · subst ha
      simp [set]
    · simp only [set, if_neg ha]
      split at h
      · cases h; exact absurd rfl ha
      · split at h
        · cases h; exact absurd rfl ha
        · rename_i hk
          rw [if_neg hk]
          exact ih h

theorem Probed.set (hp : Probed cap home t) (hs : probe cap t k cap (home k) = some s) : Probed cap home (set t s k v) := by
  intro x k' w hx
  by_cases hxs : x = s
  · subst hxs
    simp only [OpenTable.set, if_true, Option.some.injEq, Prod.mk.injEq] at hx
    obtain ⟨rfl, rfl⟩ := hx
    exact probe_set_self hs
  · simp only [OpenTable.set, if_neg hxs] at hx
    have hne : k' ≠ k := by
      rintro rfl
      exact hxs (Option.some.inj ((hp x k' w hx).symm.trans hs))
    exact probe_set hne (probe_slot hs) (hp x k' w hx) ⟨w, hx⟩

theorem lookup_set_self (hs : probe cap t k cap (home k) = some s) : lookup cap home (set t s k v) k = some v := by
  rw [lookup, probe_set_self hs]
  simp [set]

/-- A lookup finds exactly what is stored. -/
theorem lookup_eq_some (hp : Probed cap home t) : lookup cap home t k = some v ↔ ∃ s, t s = some (k, v) := by
  constructor
  · intro h
    obtain ⟨s, hs, hv⟩ := Option.bind_eq_some_iff.mp h
    rcases probe_slot hs with h0 | ⟨w, hw⟩
    · rw [h0] at hv
      cases hv
    · rw [hw] at hv
      cases hv
      exact ⟨s, hw⟩
  · rintro ⟨s, hs⟩
    rw [lookup, hp s k v hs, Option.bind_some, hs]
    rfl

theorem lookup_set_other (hp : Probed cap home t) {k' : κ} (hne : k' ≠ k)
    (hs : probe cap t k cap (home k) = some s) : lookup cap home (set t s k v) k' = lookup cap home t k' := by
  -- both sides find the same stored values of `k'`
  have hstored : ∀ w x, OpenTable.set t s k v x = some (k', w) ↔ t x = some (k', w) := by
    intro w x
    by_cases hx : x = s
    · subst hx
      simp only [OpenTable.set, if_true, Option.some.injEq, Prod.mk.injEq]
      constructor
      · rintro ⟨rfl, -⟩
        exact absurd rfl hne
      · intro h
        rcases probe_slot hs with h0 | ⟨u, hu⟩
        · rw [h0] at h
          cases h
        · rw [hu] at h
          cases h
          exact absurd rfl hne
    · simp only [OpenTable.set, if_neg hx]
  refine Option.ext fun w => ?_
  rw [lookup_eq_some (hp.set hs), lookup_eq_some hp]
  exact exists_congr fun x => hstored w x

end Map

/-! ## Counting taken slots -/

def taken (cap : Nat) (t : Table κ β) : Nat := ((Finset.range cap).filter fun s => (t s).isSome).card

omit [DecidableEq κ] in
theorem taken_le {cap : Nat} {t : Table κ β} : taken cap t ≤ cap :=
  (Finset.card_filter_le _ _).trans (Finset.card_range cap).le

omit [DecidableEq κ] in
theorem exists_free {cap : Nat} {t : Table κ β} (h : taken cap t < cap) : ∃ s < cap, t s = none := by
  by_contra hall
  push Not at hall
  have : (Finset.range cap).filter (fun s => (t s).isSome) = Finset.range cap := by
    refine Finset.filter_true_of_mem fun s hs => ?_
    exact Option.isSome_iff_ne_none.mpr (hall s (Finset.mem_range.mp hs))
  rw [taken, this, Finset.card_range] at h
  omega

omit [DecidableEq κ] in
theorem taken_set {cap : Nat} {t : Table κ β} {s : Nat} (hs : s < cap) {k : κ} {v : β} :
    taken cap (set t s k v) = taken cap t + if (t s).isSome then 0 else 1 := by
  have hset : (Finset.range cap).filter (fun x => (set t s k v x).isSome) =
      insert s ((Finset.range cap).filter fun x => (t x).isSome) := by
    ext x
    rw [Finset.mem_filter, Finset.mem_insert, Finset.mem_filter, Finset.mem_range]
    by_cases hx : x = s
    · simp [set, hx, hs]
    · simp [set, hx]
  rw [taken, hset, taken]
  split
  · rename_i h
    rw [Finset.insert_eq_of_mem (by simp [hs, h])]
    rfl
  · rename_i h
    rw [Finset.card_insert_of_notMem (by simp [h])]

end Panthera.Lib.OpenTable
