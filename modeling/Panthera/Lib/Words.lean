/-
  Panthera.Lib.Words — the words of a text.

  A word is a maximal run of elements that are no separators. `squeeze` writes the separators between
  two words as one blank and drops those in front; it keeps the words (`isWord_squeeze`). Cutting a
  text keeps them too, but for the one before the cut (`isWord_take_iff`).
-/

import Mathlib.Data.List.DropRight
import Mathlib.Data.List.TakeWhile

namespace Panthera.Lib.Words

variable {α : Type*} {sep : α → Bool} {l l' w t : List α} {a : α}

structure IsWord (sep : α → Bool) (l word : List α) : Prop where
  ne_nil : word ≠ []
  plain : ∀ a ∈ word, sep a = false
  maximal : ∃ before after, l = before ++ (word ++ after) ∧
    (∀ a, before.getLast? = some a → sep a = true) ∧ ∀ a, after.head? = some a → sep a = true

theorem not_isWord_nil : ¬ IsWord sep [] t := by
  rintro ⟨hne, -, before, after, h, -⟩
  exact hne (List.append_eq_nil_iff.mp (List.append_eq_nil_iff.mp h.symm).2).1

theorem isWord_cons_sep (ha : sep a = true) : IsWord sep (a :: l) t ↔ IsWord sep l t := by
  constructor
  · rintro ⟨hne, hplain, before, after, h, hbefore, hafter⟩
    refine ⟨hne, hplain, ?_⟩
    cases before with
    | nil =>
      obtain ⟨b, t, rfl⟩ := List.exists_cons_of_ne_nil hne
      obtain ⟨rfl, -⟩ := List.cons.inj h
      rw [hplain a List.mem_cons_self] at ha
      cases ha
    | cons b before =>
      refine ⟨before, after, (List.cons.inj h).2, fun c hc => hbefore c ?_, hafter⟩
      rw [List.getLast?_cons, hc]
      rfl
  · rintro ⟨hne, hplain, before, after, rfl, hbefore, hafter⟩
    refine ⟨hne, hplain, a :: before, after, rfl, fun c hc => ?_, hafter⟩
    cases hlast : before.getLast? with
    | none =>
      rw [List.getLast?_cons, hlast] at hc
      exact Option.some.inj hc ▸ ha
    | some b =>
      rw [List.getLast?_cons, hlast] at hc
      exact Option.some.inj hc ▸ hbefore b hlast

theorem isWord_append_seps_left {s : List α} (hs : ∀ a ∈ s, sep a = true) : IsWord sep (s ++ l) t ↔ IsWord sep l t := by
  induction s with
  | nil => rfl
  | cons a s ih =>
    rw [List.cons_append, isWord_cons_sep (hs a List.mem_cons_self)]
    exact ih fun b hb => hs b (List.mem_cons_of_mem a hb)

/-- The first word, and the others. -/
theorem isWord_append (hne : w ≠ []) (hplain : ∀ a ∈ w, sep a = false) (hl : ∀ a, l.head? = some a → sep a = true) :
    IsWord sep (w ++ l) t ↔ t = w ∨ IsWord sep l t := by
  constructor
  · rintro ⟨htne, htplain, before, after, h, hbefore, hafter⟩
    rcases List.append_eq_append_iff.mp h with ⟨c, rfl, hrest⟩ | ⟨c, rfl, hrest⟩
    · right
      refine ⟨htne, htplain, c, after, hrest, fun a ha => hbefore a ?_, hafter⟩
      rw [List.getLast?_append, ha]
      rfl
    · left
      -- nothing in front of the word, as that would be of the first one and end in a separator
      obtain rfl : before = [] := by
        by_contra hb
        obtain ⟨a, ha⟩ := Option.isSome_iff_exists.mp (List.getLast?_isSome.mpr hb)
        have hsep := hbefore a ha
        rw [hplain a (List.mem_append_left c (List.mem_of_getLast? ha))] at hsep
        cases hsep
      rw [List.nil_append]
      rcases List.append_eq_append_iff.mp hrest with ⟨d, rfl, hd⟩ | ⟨d, rfl, hd⟩
      · cases d with
        | nil => rw [List.append_nil]
        | cons a d =>
          have hsep := hafter a (by rw [hd]; rfl)
          rw [hplain a (by simp)] at hsep
          cases hsep
      · cases d with
        | nil => rw [List.append_nil]
        | cons a d =>
          have hsep := hl a (by rw [hd]; rfl)
          rw [htplain a (by simp)] at hsep
          cases hsep
  · rintro (rfl | ⟨htne, htplain, before, after, rfl, hbefore, hafter⟩)
    · exact ⟨hne, hplain, [], l, rfl, fun a ha => (nomatch ha), hl⟩
    · refine ⟨htne, htplain, w ++ before, after, (List.append_assoc _ _ _).symm, fun a ha => ?_, hafter⟩
      rw [List.getLast?_append] at ha
      cases hlast : before.getLast? with
      | some b =>
        rw [hlast] at ha
        exact Option.some.inj ha ▸ hbefore b hlast
      | none =>
        obtain rfl := List.getLast?_eq_none_iff.mp hlast
        obtain ⟨b, t, rfl⟩ := List.exists_cons_of_ne_nil htne
        have hsep := hl b rfl
        rw [htplain b List.mem_cons_self] at hsep
        cases hsep

theorem isWord_reverse : IsWord sep l.reverse t.reverse ↔ IsWord sep l t := by
  have himp : ∀ {l t : List α}, IsWord sep l t → IsWord sep l.reverse t.reverse := by
    rintro l t ⟨hne, hplain, before, after, rfl, hbefore, hafter⟩
    refine ⟨by simpa using hne, fun a ha => hplain a (List.mem_reverse.mp ha), after.reverse, before.reverse, ?_, fun a ha => ?_, fun a ha => ?_⟩
    · simp
    · exact hafter a (by simpa using ha)
    · exact hbefore a (by simpa using ha)
  refine ⟨fun h => ?_, himp⟩
  simpa using himp h

theorem isWord_append_seps_right {s : List α} (hs : ∀ a ∈ s, sep a = true) : IsWord sep (l ++ s) t ↔ IsWord sep l t := by
  rw [← isWord_reverse, List.reverse_append, isWord_append_seps_left fun a ha => hs a (List.mem_reverse.mp ha), isWord_reverse]

theorem IsWord.congr {sep' : α → Bool} (h : IsWord sep l t) (hsep : ∀ a ∈ l, sep a = sep' a) : IsWord sep' l t := by
  obtain ⟨hne, hplain, before, after, rfl, hbefore, hafter⟩ := h
  refine ⟨hne, fun a ha => ?_, before, after, rfl, fun a ha => ?_, fun a ha => ?_⟩
  · rw [← hsep a (by simp [ha]), hplain a ha]
  · rw [← hsep a (by simp [List.mem_of_getLast? ha]), hbefore a ha]
  · rw [← hsep a (by simp [List.mem_of_mem_head? ha]), hafter a ha]

theorem sep_of_head?_dropWhile (h : (l.dropWhile fun a => !sep a).head? = some a) : sep a = true := by
  have hnot := List.head?_dropWhile_not (fun a => !sep a) l
  rw [h] at hnot
  simpa using hnot

/-- What stands in front of the first separator, and the words after it. -/
theorem isWord_iff_takeWhile (hne : l.takeWhile (fun a => !sep a) ≠ []) :
    IsWord sep l t ↔ t = l.takeWhile (fun a => !sep a) ∨ IsWord sep (l.dropWhile fun a => !sep a) t := by
  have hplain : ∀ a ∈ l.takeWhile (fun a => !sep a), sep a = false := fun a ha => by simpa using List.mem_takeWhile_imp ha
  have h := isWord_append (t := t) hne hplain fun a (ha : (l.dropWhile fun a => !sep a).head? = some a) => sep_of_head?_dropWhile ha
  rwa [List.takeWhile_append_dropWhile] at h

/-! ## Cutting -/

/-- What stands after the last separator. -/
def lastWord (sep : α → Bool) (l : List α) : List α := l.rtakeWhile fun a => !sep a

theorem isWord_lastWord (h : lastWord sep l ≠ []) : IsWord sep l (lastWord sep l) := by
  rw [lastWord, List.rtakeWhile] at h ⊢
  rw [← isWord_reverse, List.reverse_reverse, isWord_iff_takeWhile (by simpa using h)]
  exact .inl rfl

theorem lastWord_append (hplain : ∀ a ∈ w, sep a = false) (hl : ∀ a, l.getLast? = some a → sep a = true) : lastWord sep (l ++ w) = w := by
  have hnone : l.reverse.takeWhile (fun a => !sep a) = [] := by
    cases hrev : l.reverse with
    | nil => rfl
    | cons a rest =>
      have ha : l.getLast? = some a := by rw [← List.head?_reverse, hrev]; rfl
      simp [hl a ha]
  rw [lastWord, List.rtakeWhile, List.reverse_append, List.takeWhile_append_of_pos, hnone, List.append_nil, List.reverse_reverse]
  intro a ha
  simp [hplain a (List.mem_reverse.mp ha)]

theorem IsWord.of_take {n : Nat} (h : IsWord sep (l.take n) t) : IsWord sep l t ∨ t = lastWord sep (l.take n) := by
  obtain ⟨hne, hplain, before, after, htake, hbefore, hafter⟩ := h
  cases after with
  | nil =>
    right
    rw [htake, List.append_nil, lastWord_append hplain hbefore]
  | cons a after =>
    left
    refine ⟨hne, hplain, before, a :: after ++ l.drop n, ?_, hbefore, fun b hb => hafter b hb⟩
    calc l = l.take n ++ l.drop n := (List.take_append_drop n l).symm
      _ = before ++ (t ++ (a :: after ++ l.drop n)) := by rw [htake, List.append_assoc, List.append_assoc]

/-- The words of the first part of a text are words of it, but perhaps for the one before the cut. -/
theorem isWord_take_iff {n : Nat} :
    (∀ t, IsWord sep (l.take n) t → IsWord sep l t) ↔ lastWord sep (l.take n) = [] ∨ IsWord sep l (lastWord sep (l.take n)) := by
  constructor
  · intro h
    by_cases hlast : lastWord sep (l.take n) = []
    · exact .inl hlast
    · exact .inr (h _ (isWord_lastWord hlast))
  · rintro h t ht
    rcases ht.of_take with hword | rfl
    · exact hword
    · exact h.resolve_left ht.ne_nil

/-! ## Squeezing -/

/-- One blank for the separators between two words, and none in front. -/
def squeeze (sep : α → Bool) (blank : α) : (afterBlank : Bool) → List α → List α
  | _, [] => []
  | afterBlank, a :: l =>
    if sep a then if afterBlank then squeeze sep blank true l else blank :: squeeze sep blank true l
    else a :: squeeze sep blank false l

variable {blank : α}

theorem isWord_squeeze_aux (hblank : sep blank = true) (l : List α) :
    (IsWord sep (squeeze sep blank true l) t ↔ IsWord sep l t) ∧
      ∀ w, w ≠ [] → (∀ a ∈ w, sep a = false) → (IsWord sep (w ++ squeeze sep blank false l) t ↔ IsWord sep (w ++ l) t) := by
  induction l with
  | nil => exact ⟨Iff.rfl, fun _ _ _ => Iff.rfl⟩
  | cons a l ih =>
    obtain ⟨ihfirst, ihinside⟩ := ih
    cases ha : sep a with
    | true =>
      refine ⟨?_, fun w hne hplain => ?_⟩
      · rw [isWord_cons_sep ha, squeeze, if_pos ha, if_pos rfl]
        exact ihfirst
      · rw [squeeze, if_pos ha, if_neg Bool.false_ne_true, isWord_append hne hplain (by simpa using hblank), isWord_append hne hplain (by simpa using ha),
          isWord_cons_sep hblank, isWord_cons_sep ha, ihfirst]
    | false =>
      have hsingle : ∀ b ∈ [a], sep b = false := by simpa using ha
      refine ⟨?_, fun w hne hplain => ?_⟩
      · rw [squeeze, if_neg (by simp [ha])]
        exact ihinside [a] (List.cons_ne_nil a []) hsingle
      · rw [squeeze, if_neg (by simp [ha]), List.append_cons, List.append_cons w a l]
        refine ihinside (w ++ [a]) (by simp) fun b hb => ?_
        rcases List.mem_append.mp hb with hb | hb
        · exact hplain b hb
        · exact hsingle b hb

theorem isWord_squeeze (hblank : sep blank = true) : IsWord sep (squeeze sep blank true l) t ↔ IsWord sep l t :=
  (isWord_squeeze_aux hblank l).1

/-- A text with a word begins with it. -/
theorem squeeze_eq_cons (h : ∃ b ∈ l, sep b = false) : ∃ a rest, squeeze sep blank true l = a :: rest ∧ sep a = false := by
  induction l with
  | nil =>
    obtain ⟨b, hb, -⟩ := h
    cases hb
  | cons a l ih =>
    rw [squeeze]
    cases ha : sep a with
    | false => exact ⟨a, _, rfl, ha⟩
    | true =>
      obtain ⟨b, hb, hplain⟩ := h
      rcases List.mem_cons.mp hb with rfl | hb
      · rw [ha] at hplain
        cases hplain
      · exact ih ⟨b, hb, hplain⟩

/-- The only separators that are left are blanks. -/
theorem eq_blank_of_mem_squeeze {afterBlank : Bool} (h : a ∈ squeeze sep blank afterBlank l) (ha : sep a = true) : a = blank := by
  induction l generalizing afterBlank with
  | nil => cases h
  | cons b l ih =>
    rw [squeeze] at h
    split at h
    · split at h
      · exact ih h
      · rcases List.mem_cons.mp h with rfl | h
        · rfl
        · exact ih h
    · rename_i hb
      rcases List.mem_cons.mp h with rfl | h
      · exact absurd ha hb
      · exact ih h

end Panthera.Lib.Words
