/-
  Panthera.Lib.Scan — scanning a text from the left for fixed tags.

  `after tag text` is what follows a tag at the front of a text, `upTo tag text` what
  stands before its first occurrence and what follows it. A tag that cannot be mistaken
  for another (`Apart`) is told from it by its first bytes (`after_apart`), and a body
  without the tag's first letter is found whole (`upTo_append`). `dispatch` goes by the first
  of several tags that stands there; where they are apart it is the tag's own branch.
-/

import Mathlib.Tactic

namespace Panthera.Lib.Scan

variable {α : Type} [DecidableEq α]

def after : List α → List α → Option (List α)
  | [], text => some text
  | _ :: _, [] => none
  | a :: tag, b :: text => if a = b then after tag text else none

@[simp] theorem after_append (tag rest : List α) : after tag (tag ++ rest) = some rest := by
  induction tag with
  | nil => rfl
  | cons a tag ih => simp [after, ih]

/-- Neither tag begins with the other. -/
def Apart (tag tag' : List α) : Prop := after tag tag' = none ∧ after tag' tag = none

instance (tag tag' : List α) : Decidable (Apart tag tag') := inferInstanceAs (Decidable (_ ∧ _))

theorem after_apart {tag tag' : List α} (h : Apart tag tag') (rest : List α) : after tag (tag' ++ rest) = none := by
  induction tag generalizing tag' with
  | nil => exact absurd h.1 (Option.some_ne_none _)
  | cons a tag ih =>
    cases tag' with
    | nil => exact absurd h.2 (Option.some_ne_none _)
    | cons b tag' =>
      obtain ⟨h, h'⟩ := h
      simp only [after, List.cons_append] at h h' ⊢
      by_cases hab : a = b
      · rw [if_pos hab] at h ⊢
        rw [if_pos hab.symm] at h'
        exact ih ⟨h, h'⟩
      · rw [if_neg hab]

def upTo (tag : List α) : List α → Option (List α × List α)
  | [] => (after tag []).map fun rest => ([], rest)
  | a :: text =>
    match after tag (a :: text) with
    | some rest => some ([], rest)
    | none => (upTo tag text).map fun r => (a :: r.1, r.2)

theorem upTo_append {a : α} {tag body : List α} (h : a ∉ body) (rest : List α) :
    upTo (a :: tag) (body ++ (a :: tag ++ rest)) = some (body, rest) := by
  induction body with
  | nil =>
    have hfound := after_append (a :: tag) rest
    rw [List.nil_append]
    rw [List.cons_append] at hfound ⊢
    rw [upTo, hfound]
  | cons b body ih =>
    obtain ⟨hab, hbody⟩ : a ≠ b ∧ a ∉ body := by simpa using h
    rw [List.cons_append, upTo, after, if_neg hab, ih hbody]
    rfl

section Dispatch

variable {β : Type} (otherwise : List α → β)

/-- The branch of the first tag that stands at `p`, on what is behind it. -/
def dispatch : List (List α × (List α → β)) → List α → β
  | [], p => otherwise p
  | branch :: branches, p =>
    match after branch.1 p with
    | some rest => branch.2 rest
    | none => dispatch branches p

variable {otherwise}

theorem dispatch_tag {branches : List (List α × (List α → β))} (hapart : (branches.map Prod.fst).Pairwise Apart)
    {branch : List α × (List α → β)} (hmem : branch ∈ branches) (rest : List α) :
    dispatch otherwise branches (branch.1 ++ rest) = branch.2 rest := by
  induction branches with
  | nil => cases hmem
  | cons b bs ih =>
    rw [List.map_cons, List.pairwise_cons] at hapart
    rcases List.mem_cons.mp hmem with rfl | hmem
    · rw [dispatch, after_append]
    · rw [dispatch, after_apart (hapart.1 _ (List.mem_map_of_mem hmem)), ih hapart.2 hmem]

end Dispatch

end Panthera.Lib.Scan
