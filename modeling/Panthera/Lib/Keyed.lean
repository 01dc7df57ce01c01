/-
  Panthera.Lib.Keyed — tables whose entries have distinct keys, and logs whose events
  belong to one key each.

  In a table with distinct keys the entry of a key is found, changed and dropped by its
  position or by its key alike. The events of one key in a log are the word of a partial
  automaton (`phase`); events of other keys do not move it.
-/

import Mathlib.Data.List.Nodup
import Mathlib.Tactic

namespace Panthera.Lib.Keyed

variable {α β κ : Type} [DecidableEq κ]

/-! ## Tables -/

section Table

variable {key : α → κ} {l : List α} {a b : α} {i : Nat}

theorem key_of_findIdx? {k : κ} (h : l.findIdx? (fun x => key x == k) = some i) : ∃ a, l[i]? = some a ∧ key a = k := by
  obtain ⟨hi, ha, -⟩ := List.findIdx?_eq_some_iff_getElem.mp h
  exact ⟨l[i], List.getElem?_eq_getElem hi, by simpa using ha⟩

theorem findIdx?_of_mem (h : (l.map key).Nodup) (ha : a ∈ l) :
    ∃ i, l.findIdx? (fun x => key x == key a) = some i ∧ l[i]? = some a := by
  rcases hf : l.findIdx? (fun x => key x == key a) with _ | i
  · have := List.findIdx?_eq_none_iff.mp hf a ha
    simp at this
  · obtain ⟨b, hb, hk⟩ := key_of_findIdx? hf
    exact ⟨i, rfl, List.inj_on_of_nodup_map h (List.mem_of_getElem? hb) ha hk ▸ hb⟩

theorem eraseP_eq_filter (k : κ) : ∀ {l : List α}, (l.map key).Nodup →
    l.eraseP (fun x => key x == k) = l.filter fun x => key x ≠ k
  | [], _ => rfl
  | a :: l, h => by
    obtain ⟨hnot, h⟩ := List.nodup_cons.mp h
    by_cases hk : key a = k
    · have hrest : ∀ x ∈ l, key x ≠ k := fun x hx he => hnot (List.mem_map.mpr ⟨x, hx, he.trans hk.symm⟩)
      simpa [hk] using (List.filter_eq_self.mpr fun x hx => by simpa using hrest x hx).symm
    · simpa [hk] using eraseP_eq_filter k h

theorem eraseIdx_eq_filter (h : (l.map key).Nodup) (hi : l[i]? = some a) : l.eraseIdx i = l.filter fun x => key x ≠ key a := by
  obtain ⟨j, hj, hja⟩ := findIdx?_of_mem h (List.mem_of_getElem? hi)
  have hij : j = i := by
    obtain ⟨hjl, hja⟩ := List.getElem?_eq_some_iff.mp hja
    obtain ⟨hil, hia⟩ := List.getElem?_eq_some_iff.mp hi
    exact (h.of_map key).getElem_inj_iff.mp (hja.trans hia.symm)
  have herase : l.eraseP (fun x => key x == key a) = l.eraseIdx i := by
    rw [List.eraseP_eq_eraseIdx, hj, hij]
  rw [← herase, eraseP_eq_filter _ h]

theorem map_modify {f : α → α} {g : α → β} (hf : ∀ a, g (f a) = g a) : (l.modify i f).map g = l.map g := by
  apply List.ext_getElem?
  intro j
  rw [List.getElem?_map, List.getElem?_map, List.getElem?_modify]
  cases l[j]? with
  | none => simp
  | some x => by_cases hij : i = j <;> simp [hij, hf]

theorem filter_map_modify {f : α → α} {p : α → Bool} {g : α → β} (hp : ∀ a, p (f a) = p a) (hg : ∀ a, g (f a) = g a) :
    ∀ {l : List α} {i : Nat}, ((l.modify i f).filter p).map g = (l.filter p).map g
  | [], i => by simp
  | a :: l, 0 => by by_cases ha : p a <;> simp [hp, hg, ha]
  | a :: l, i + 1 => by
    by_cases ha : p a <;> simp [ha, filter_map_modify hp hg (l := l) (i := i)]

omit [DecidableEq κ] in
theorem mem_modify {f : α → α} (h : (l.map key).Nodup) (hi : l[i]? = some a) (hb : b ∈ l.modify i f) :
    b = f a ∨ (b ∈ l ∧ key b ≠ key a) := by
  obtain ⟨j, hj⟩ := List.mem_iff_getElem?.mp hb
  rw [List.getElem?_modify] at hj
  by_cases hij : i = j
  · subst hij
    rw [hi] at hj
    left
    simpa using hj.symm
  · right
    simp only [if_neg hij, id_map'] at hj
    refine ⟨List.mem_of_getElem? hj, fun hk => hij ?_⟩
    have hab := List.inj_on_of_nodup_map h (List.mem_of_getElem? hj) (List.mem_of_getElem? hi) hk
    obtain ⟨hjl, hjb⟩ := List.getElem?_eq_some_iff.mp hj
    obtain ⟨hil, hia⟩ := List.getElem?_eq_some_iff.mp hi
    exact (h.of_map key).getElem_inj_iff.mp (hia.trans (hjb.trans hab).symm)

omit [DecidableEq κ] in
theorem mem_modify_of_ne {f : α → α} (hi : l[i]? = some a) (hb : b ∈ l) (hne : key b ≠ key a) : b ∈ l.modify i f := by
  obtain ⟨j, hj⟩ := List.mem_iff_getElem?.mp hb
  have hij : i ≠ j := by
    rintro rfl
    exact hne (congrArg key (Option.some.inj (hj.symm.trans hi)))
  have hget : (l.modify i f)[j]? = some b := by
    rw [List.getElem?_modify, hj]
    simp [hij]
  exact List.mem_of_getElem? hget

end Table

/-! ## Logs -/

section Log

variable {ε π : Type} (key : ε → κ) (step : π → ε → Option π) (start : π)

/-- Where the events of `k` lead, if each of them is allowed in its turn. -/
def phase (k : κ) (log : List ε) : Option π := (log.filter fun e => key e = k).foldlM step start

variable {key step start} {k : κ} {log events : List ε} {p : π}

theorem phase_append (hevents : ∀ e ∈ events, key e = k) (h : phase key step start k log = some p) :
    phase key step start k (log ++ events) = events.foldlM step p := by
  have hall : (events.filter fun e => key e = k) = events := List.filter_eq_self.mpr fun e he => by simpa using hevents e he
  unfold phase at h ⊢
  rw [List.filter_append, hall, List.foldlM_append, h]
  rfl

theorem phase_append_other (hevents : ∀ e ∈ events, key e ≠ k) :
    phase key step start k (log ++ events) = phase key step start k log := by
  have hnone : (events.filter fun e => key e = k) = [] := List.filter_eq_nil_iff.mpr fun e he => by simpa using hevents e he
  unfold phase
  rw [List.filter_append, hnone, List.append_nil]

end Log

end Panthera.Lib.Keyed
