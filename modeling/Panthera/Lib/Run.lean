/-
  Panthera.Lib.Run — invariants of loops and of runs that may fault.

  A run that may fault ends in `none` or in a state. `Sound P` says that `P` holds of
  the state, if there is one; it passes through sequencing (`Sound.bind`) and loops
  (`Sound.foldlM`), so that an invariant of each step is one of the whole run. `reached` is
  what a loop comes to that ends behind the first element that is not in order.

  `Guarded G` says that every step of a run meets `G`, a condition on the state before it.
  What a step keeps under that condition holds after every part of the run
  (`Guarded.reaches`).
-/

import Mathlib.Tactic

namespace Panthera.Lib.Run

variable {σ α : Type}

/-- What every turn of a loop keeps, the loop keeps. -/
theorem foldl_inv {P : σ → Prop} {f : σ → α → σ} (hf : ∀ st a, P st → P (f st a)) : ∀ (l : List α) {st : σ},
    P st → P (l.foldl f st) := by
  intro l
  induction l with
  | nil => intro st h; exact h
  | cons a l ih => intro st h; exact ih (hf st a h)

/-- The elements that a loop comes to which ends behind the first that is not `ok`. -/
def reached (ok : α → Bool) : List α → List α
  | [] => []
  | a :: l => a :: if ok a then reached ok l else []

theorem reached_of_all {ok : α → Bool} : ∀ {l : List α}, (∀ a ∈ l, ok a = true) → reached ok l = l := by
  intro l
  induction l with
  | nil => exact fun _ => rfl
  | cons a l ih =>
    intro h
    obtain ⟨ha, hl⟩ := List.forall_mem_cons.mp h
    rw [reached, if_pos ha, ih hl]

theorem mem_of_mem_reached {ok : α → Bool} {a : α} : ∀ {l : List α}, a ∈ reached ok l → a ∈ l := by
  intro l
  induction l with
  | nil => exact fun h => h
  | cons b l ih =>
    intro h
    rw [reached] at h
    split at h
    · exact (List.mem_cons.mp h).elim (fun h => h ▸ List.mem_cons_self) fun h => List.mem_cons_of_mem _ (ih h)
    · exact List.mem_singleton.mp h ▸ List.mem_cons_self

/-- `P` holds of the state, unless the run has faulted. -/
def Sound (P : σ → Prop) (r : Option σ) : Prop := ∀ st, r = some st → P st

variable {f : σ → α → Option σ}

namespace Sound

variable {P : σ → Prop}

theorem some {st : σ} (h : P st) : Sound P (some st) := fun _ he => by cases he; exact h

theorem none : Sound P none := fun _ he => by cases he

theorem bind {r : Option σ} {f : σ → Option σ} (h : Sound P r) (hf : ∀ st, P st → Sound P (f st)) :
    Sound P (r.bind f) := by
  intro st' he
  obtain ⟨st, hst, he⟩ := Option.bind_eq_some_iff.mp he
  exact hf st (h st hst) st' he

theorem map {τ : Type} {Q : τ → Prop} {g : σ → τ} {r : Option σ} (h : Sound P r) (hg : ∀ st, P st → Q (g st)) : Sound Q (r.map g) := by
  intro st' he
  obtain ⟨st, hst, rfl⟩ := Option.map_eq_some_iff.mp he
  exact hg st (h st hst)

/-- A value read on the way, where the read may fault. -/
theorem read {r : Option α} {f : α → Option σ} (hf : ∀ a, Sound P (f a)) : Sound P (r.bind f) := by
  intro st he
  obtain ⟨a, -, he⟩ := Option.bind_eq_some_iff.mp he
  exact hf a st he

theorem foldlM_of_mem : ∀ {l : List α}, (∀ a ∈ l, ∀ st, P st → Sound P (f st a)) → ∀ {st : σ}, P st →
    Sound P (l.foldlM f st) := by
  intro l
  induction l with
  | nil => intro _ st h; exact .some h
  | cons a l ih =>
    intro hf st h
    rw [List.foldlM_cons]
    exact Sound.bind (hf a List.mem_cons_self st h) fun st h => ih (fun b hb => hf b (List.mem_cons_of_mem _ hb)) h

theorem foldlM (hf : ∀ st a, P st → Sound P (f st a)) (l : List α) {st : σ} (h : P st) :
    Sound P (l.foldlM f st) := foldlM_of_mem (fun a _ st h => hf st a h) h

end Sound

/-- A loop whose turns fault exactly where `p` does not hold. -/
theorem foldlM_ne_none_iff {p : α → Prop} (hf : ∀ st a, f st a ≠ none ↔ p a) (l : List α) (st : σ) :
    l.foldlM f st ≠ none ↔ ∀ a ∈ l, p a := by
  induction l generalizing st with
  | nil => exact iff_of_true (fun h => nomatch h) fun a ha => nomatch ha
  | cons a l ih =>
    rw [List.foldlM_cons, List.forall_mem_cons, ← hf st a]
    cases f st a with
    | none => exact iff_of_false (fun h => h rfl) fun h => h.1 rfl
    | some st' => exact (ih st').trans (and_iff_right (Option.some_ne_none st')).symm

/-- Loops over equal turns are equal, if the turns are equal as far as an invariant goes. -/
theorem foldlM_congr {P : σ → Prop} {g : σ → α → Option σ} : ∀ {l : List α}, (∀ a ∈ l, ∀ st, P st → f st a = g st a) →
    (∀ a ∈ l, ∀ st, P st → Sound P (g st a)) → ∀ {st : σ}, P st → l.foldlM f st = l.foldlM g st := by
  intro l
  induction l with
  | nil => intros; rfl
  | cons a l ih =>
    intro hfg hg st h
    rw [List.foldlM_cons, List.foldlM_cons, hfg a List.mem_cons_self st h]
    rcases hst : g st a with _ | st'
    · rfl
    · exact ih (fun b hb => hfg b (List.mem_cons_of_mem _ hb)) (fun b hb => hg b (List.mem_cons_of_mem _ hb))
        (hg a List.mem_cons_self st h st' hst)

/-- A loop inside a loop is one loop. -/
theorem foldlM_flatMap {β : Type} {f : σ → β → Option σ} {g : α → List β} : ∀ (l : List α) (st : σ),
    (l.flatMap g).foldlM f st = l.foldlM (fun st a => (g a).foldlM f st) st := by
  intro l
  induction l with
  | nil => intro st; rfl
  | cons a l ih =>
    intro st
    rw [List.flatMap_cons, List.foldlM_append, List.foldlM_cons]
    exact congrArg (Option.bind _) (funext fun st => ih st)

/-- A loop that does not fault has not faulted at any element. -/
theorem exists_of_foldlM : ∀ {l : List α} {st st' : σ}, l.foldlM f st = some st' → ∀ a ∈ l, ∃ s s', f s a = some s' := by
  intro l
  induction l with
  | nil => intro st st' _ a ha; cases ha
  | cons b l ih =>
    intro st st' h a ha
    rw [List.foldlM_cons] at h
    obtain ⟨s, hs, hrest⟩ := Option.bind_eq_some_iff.mp h
    rcases List.mem_cons.mp ha with rfl | ha
    · exact ⟨st, s, hs⟩
    · exact ih hrest a ha

/-! ## Runs whose steps meet a condition -/

section

variable (step : σ → α → Option σ) (G : σ → α → Prop)

def Guarded : σ → List α → Prop
  | _, [] => True
  | st, a :: l => G st a ∧ ∀ st' ∈ step st a, Guarded st' l

instance Guarded.decidable [∀ st a, Decidable (G st a)] : ∀ (st : σ) (l : List α), Decidable (Guarded step G st l)
  | _, [] => .isTrue trivial
  | st, a :: l =>
    match h : step st a with
    | none => decidable_of_iff (G st a) (by simp [Guarded, h])
    | some st' =>
      haveI := Guarded.decidable st' l
      decidable_of_iff (G st a ∧ Guarded step G st' l) (by simp [Guarded, h])

end

namespace Guarded

variable {step : σ → α → Option σ} {G : σ → α → Prop} {P : σ → Prop}

theorem reaches (hstep : ∀ st a, P st → G st a → ∃ st', step st a = some st' ∧ P st') (n : Nat) : ∀ (l : List α) (st : σ),
    P st → Guarded step G st l → ∃ st', (l.take n).foldlM step st = some st' ∧ P st' := by
  induction n with
  | zero => exact fun l st h _ => ⟨st, rfl, h⟩
  | succ n ih =>
    intro l st h hl
    cases l with
    | nil => exact ⟨st, rfl, h⟩
    | cons a l =>
      obtain ⟨st', ha, h'⟩ := hstep st a h hl.1
      obtain ⟨st'', hrun, h''⟩ := ih l st' h' (hl.2 st' ha)
      exact ⟨st'', by rw [List.take_succ_cons, List.foldlM_cons, ha]; exact hrun, h''⟩

theorem and {H : σ → α → Prop} : ∀ (l : List α) (st : σ), Guarded step G st l → Guarded step H st l →
    Guarded step (fun st a => G st a ∧ H st a) st l := by
  intro l
  induction l with
  | nil => exact fun _ _ _ => trivial
  | cons a l ih => exact fun st h h' => ⟨⟨h.1, h'.1⟩, fun st' hst' => ih st' (h.2 st' hst') (h'.2 st' hst')⟩

end Guarded

end Panthera.Lib.Run
