/-
  Panthera.Lib.Ranges — ranges of addresses or file offsets, ranges laid end to end, and
  byte strings written into them.

  Proved: ranges laid end to end are disjoint and fill what they fill (`stack_disjoint`,
  `stack_inside`); disjoint ranges below a bound take no more than the bound
  (`sum_size_le`); what is written into disjoint ranges is there afterwards
  (`foldl_put`). `SameOn` says that two memories agree on a range; then so do the words
  that are read there.
-/

import Panthera.Lib.Bytes

namespace Panthera.Lib.Ranges

open Lib.Bytes

structure Range where
  start : Nat
  size : Nat
  deriving DecidableEq, Repr

namespace Range

def stop (r : Range) : Nat := r.start + r.size

instance : Membership Nat Range := ⟨fun r x => r.start ≤ x ∧ x < r.stop⟩

theorem mem_iff {r : Range} {x : Nat} : x ∈ r ↔ r.start ≤ x ∧ x < r.start + r.size := Iff.rfl

def Disjoint (r s : Range) : Prop := ∀ x ∈ r, x ∉ s

def Inside (r s : Range) : Prop := ∀ x ∈ r, x ∈ s

variable {r s t : Range}

theorem Disjoint.symm (h : r.Disjoint s) : s.Disjoint r := fun x hx hr => h x hr hx

theorem Disjoint.mono {r' s' : Range} (h : r.Disjoint s) (hr : r'.Inside r) (hs : s'.Inside s) : r'.Disjoint s' :=
  fun x hx hx' => h x (hr x hx) (hs x hx')

theorem Inside.trans (h : r.Inside s) (h' : s.Inside t) : r.Inside t := fun x hx => h' x (h x hx)

theorem Inside.start {a n : Nat} (h : Inside ⟨a, n + 1⟩ s) : a ∈ s := h a ⟨Nat.le_refl _, Nat.lt_add_of_pos_right (Nat.succ_pos _)⟩

theorem disjoint_iff : r.Disjoint s ↔
    r.size = 0 ∨ s.size = 0 ∨ r.start + r.size ≤ s.start ∨ s.start + s.size ≤ r.start := by
  constructor
  · intro h
    by_contra hne
    have hx : max r.start s.start ∈ r := mem_iff.mpr (by omega)
    exact h _ hx (mem_iff.mpr (by omega))
  · intro h x hx hx'
    rw [mem_iff] at hx hx'
    omega

theorem inside_of_le (h : s.start ≤ r.start) (h' : r.start + r.size ≤ s.start + s.size) : r.Inside s := fun x hx => by
  rw [mem_iff] at hx ⊢
  omega

theorem inside_iff (hpos : 0 < r.size) : r.Inside s ↔ s.start ≤ r.start ∧ r.start + r.size ≤ s.start + s.size := by
  refine ⟨fun h => ?_, fun h => inside_of_le h.1 h.2⟩
  have hfirst := mem_iff.mp (h r.start (mem_iff.mpr (by omega)))
  have hlast := mem_iff.mp (h (r.start + r.size - 1) (mem_iff.mpr (by omega)))
  omega

end Range

open Range

/-! ## Counting -/

/-- The cells of a list of ranges. -/
def cells (rs : List Range) : Finset Nat := rs.foldr (fun r U => Finset.Ico r.start (r.start + r.size) ∪ U) ∅

theorem mem_cells {x : Nat} : ∀ {rs : List Range}, x ∈ cells rs ↔ ∃ r ∈ rs, x ∈ r := by
  intro rs
  induction rs with
  | nil => simp [cells]
  | cons r rs ih =>
    rw [cells, List.foldr_cons, Finset.mem_union, Finset.mem_Ico, List.exists_mem_cons_iff]
    exact or_congr mem_iff.symm ih

theorem card_cells : ∀ {rs : List Range}, rs.Pairwise Range.Disjoint → (cells rs).card = (rs.map (·.size)).sum := by
  intro rs
  induction rs with
  | nil => intro _; rfl
  | cons r rs ih =>
    intro h
    obtain ⟨hr, hrs⟩ := List.pairwise_cons.mp h
    have hdisj : Disjoint (Finset.Ico r.start (r.start + r.size)) (cells rs) := by
      refine Finset.disjoint_left.mpr fun x hx hc => ?_
      obtain ⟨s, hs, hxs⟩ := mem_cells.mp hc
      exact hr s hs x (mem_iff.mpr (Finset.mem_Ico.mp hx)) hxs
    rw [cells, List.foldr_cons]
    show (Finset.Ico r.start (r.start + r.size) ∪ cells rs).card = _
    rw [Finset.card_union_of_disjoint hdisj, ih hrs, Nat.card_Ico]
    simp

theorem sum_size_le {rs : List Range} {bound : Nat} (h : rs.Pairwise Range.Disjoint)
    (hin : ∀ r ∈ rs, r.Inside ⟨0, bound⟩) : (rs.map (·.size)).sum ≤ bound := by
  have hsub : cells rs ⊆ Finset.range bound := by
    intro x hx
    obtain ⟨r, hr, hxr⟩ := mem_cells.mp hx
    have := mem_iff.mp (hin r hr x hxr)
    simp at this ⊢
    omega
  have := Finset.card_le_card hsub
  rwa [card_cells h, Finset.card_range] at this

/-! ## End to end -/

/-- Ranges of these sizes, the first at `a` and each where the one before it ends. -/
def stack : Nat → List Nat → List Range
  | _, [] => []
  | a, n :: ns => ⟨a, n⟩ :: stack (a + n) ns

theorem stack_append : ∀ (ns ms : List Nat) (a : Nat), stack a (ns ++ ms) = stack a ns ++ stack (a + ns.sum) ms := by
  intro ns
  induction ns with
  | nil => intro ms a; rfl
  | cons n ns ih =>
    intro ms a
    simp only [List.cons_append, stack, ih, List.sum_cons, Nat.add_assoc]

theorem stack_inside : ∀ {ns : List Nat} {a : Nat} {r : Range}, r ∈ stack a ns → r.Inside ⟨a, ns.sum⟩ := by
  intro ns
  induction ns with
  | nil => intro a r h; cases h
  | cons n ns ih =>
    intro a r h
    rcases List.mem_cons.mp h with rfl | h
    · exact inside_of_le (Nat.le_refl _) (by simp)
    · exact (ih h).trans (inside_of_le (Nat.le_add_right _ _) (by simp; omega))

theorem stack_disjoint : ∀ (ns : List Nat) (a : Nat), (stack a ns).Pairwise Range.Disjoint := by
  intro ns
  induction ns with
  | nil => intro a; exact List.Pairwise.nil
  | cons n ns ih =>
    intro a
    refine List.pairwise_cons.mpr ⟨fun r hr => ?_, ih _⟩
    exact (disjoint_iff.mpr (.inr (.inr (.inl (Nat.le_refl _))))).mono (fun _ h => h) (stack_inside hr)

theorem stack_aligned {k : Nat} : ∀ {ns : List Nat} {a : Nat}, a % k = 0 → (∀ n ∈ ns, n % k = 0) → ∀ r ∈ stack a ns, r.start % k = 0 := by
  intro ns
  induction ns with
  | nil => intro a _ _ r hr; cases hr
  | cons n ns ih =>
    intro a ha hns r hr
    obtain ⟨hn, hns⟩ := List.forall_mem_cons.mp hns
    rcases List.mem_cons.mp hr with rfl | hr
    · exact ha
    · exact ih (by rw [Nat.add_mod, ha, hn]; rfl) hns r hr

/-- A list is pairwise related if what has one key is and what has different keys is. -/
theorem pairwise_of_key {α κ : Type} [DecidableEq κ] {R : α → α → Prop} {l : List α} (key : α → κ)
    (hsame : ∀ k, (l.filter (key · = k)).Pairwise R) (hdiff : ∀ a ∈ l, ∀ b ∈ l, key a ≠ key b → R a b) : l.Pairwise R := by
  refine List.pairwise_iff_forall_sublist.mpr fun {a b} hab => ?_
  by_cases hk : key a = key b
  · have hsub : ([a, b].filter (key · = key b)).Sublist (l.filter (key · = key b)) := hab.filter _
    rw [List.filter_cons_of_pos (by simpa using hk), List.filter_cons_of_pos (by simp), List.filter_nil] at hsub
    exact List.pairwise_iff_forall_sublist.mp (hsame (key b)) hsub
  · exact hdiff a (hab.subset (by simp)) b (hab.subset (by simp)) hk

section Keyed

/-! Items that lie end to end, key by key. -/

variable {α κ : Type} [DecidableEq κ] {key : α → κ} {slot : α → Range} {start : κ → Nat} {sizes : κ → List Nat} {l : List α}
  (h : ∀ k, (l.filter (key · = k)).map slot = stack (start k) (sizes k))

include h

theorem keyed_inside {a : α} (ha : a ∈ l) : (slot a).Inside ⟨start (key a), (sizes (key a)).sum⟩ := by
  refine stack_inside (h (key a) ▸ List.mem_map_of_mem ?_)
  exact List.mem_filter.mpr ⟨ha, by simp⟩

theorem keyed_disjoint (hkeys : ∀ k k', k ≠ k' → Range.Disjoint ⟨start k, (sizes k).sum⟩ ⟨start k', (sizes k').sum⟩) :
    l.Pairwise fun a b => (slot a).Disjoint (slot b) := by
  refine pairwise_of_key key (fun k => ?_) fun a ha b hb hne => ?_
  · rw [← List.pairwise_map (f := slot), h k]
    exact stack_disjoint _ _
  · exact (hkeys _ _ hne).mono (keyed_inside h ha) (keyed_inside h hb)

end Keyed

/-! ## Bytes -/

/-- `memcpy(m + a, bytes)` -/
def put (m : Mem) (a : Nat) (bytes : List UInt8) : Mem := fun x =>
  if a ≤ x ∧ x < a + bytes.length then bytes.getD (x - a) 0 else m x

theorem put_inside {m : Mem} {a x : Nat} {bytes : List UInt8} (h : x < bytes.length) :
    put m a bytes (a + x) = bytes.getD x 0 := by
  rw [put, if_pos ⟨Nat.le_add_right _ _, by omega⟩, Nat.add_sub_cancel_left]

theorem put_outside {m : Mem} {a x : Nat} {bytes : List UInt8} (h : x ∉ (⟨a, bytes.length⟩ : Range)) :
    put m a bytes x = m x := if_neg h

@[simp] theorem put_nil (m : Mem) (a : Nat) : put m a [] = m := funext fun x => put_outside (by simp [mem_iff])

/-- Writes into disjoint ranges: each is there at the end. -/
theorem foldl_put : ∀ {ws : List (Nat × List UInt8)} {m : Mem},
    ws.Pairwise (fun v w => Range.Disjoint ⟨v.1, v.2.length⟩ ⟨w.1, w.2.length⟩) →
    (∀ x, (∀ w ∈ ws, x ∉ (⟨w.1, w.2.length⟩ : Range)) → ws.foldl (fun m w => put m w.1 w.2) m x = m x) ∧
    ∀ w ∈ ws, ∀ x < w.2.length, ws.foldl (fun m w => put m w.1 w.2) m (w.1 + x) = w.2.getD x 0 := by
  intro ws
  induction ws with
  | nil => intro m _; exact ⟨fun _ _ => rfl, fun w hw => by cases hw⟩
  | cons v ws ih =>
    intro m h
    obtain ⟨hv, hws⟩ := List.pairwise_cons.mp h
    obtain ⟨hout, hin⟩ := ih (m := put m v.1 v.2) hws
    refine ⟨fun x hx => ?_, fun w hw x hlt => ?_⟩
    · rw [List.foldl_cons, hout x fun w hw => hx w (List.mem_cons_of_mem _ hw)]
      exact put_outside (hx v List.mem_cons_self)
    · rcases List.mem_cons.mp hw with rfl | hw
      · rw [List.foldl_cons, hout, put_inside hlt]
        exact fun u hu => hv u hu _ (mem_iff.mpr ⟨Nat.le_add_right _ _, Nat.add_lt_add_left hlt _⟩)
      · exact hin w hw x hlt

/-! ## Memories that agree on a range -/

def SameOn (r : Range) (m m' : Mem) : Prop := ∀ x ∈ r, m x = m' x

namespace SameOn

variable {r s : Range} {m m' m'' : Mem} {a : Nat}

theorem refl (r : Range) (m : Mem) : SameOn r m m := fun _ _ => rfl

theorem trans (h : SameOn r m m') (h' : SameOn r m' m'') : SameOn r m m'' := fun x hx => (h x hx).trans (h' x hx)

theorem mono (h : SameOn s m m') (hin : r.Inside s) : SameOn r m m' := fun x hx => h x (hin x hx)

theorem read32 (h : SameOn r m m') (hin : r.start ≤ a ∧ a + 4 ≤ r.stop) : read32 m a = read32 m' a :=
  read32_congr fun i hi => h _ (mem_iff.mpr ⟨by omega, by have := hin.2; unfold stop at this; omega⟩)

theorem read64 (h : SameOn r m m') (hin : r.start ≤ a ∧ a + 8 ≤ r.stop) : read64 m a = read64 m' a :=
  read64_congr fun i hi => h _ (mem_iff.mpr ⟨by omega, by have := hin.2; unfold stop at this; omega⟩)

theorem write64 (v : UInt64) (h : r.Disjoint ⟨a, 8⟩) : SameOn r (write64 m a v) m := fun x hx =>
  write64_outside (by
    have : ¬ (a ≤ x ∧ x < a + 8) := h x hx
    omega)

end SameOn

end Panthera.Lib.Ranges
