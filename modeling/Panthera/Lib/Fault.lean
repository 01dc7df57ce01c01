/-
  Panthera.Lib.Fault — runs that return a value, stop with a status, or fault.

  A run is an `ExceptT ε Option α`; `none` is an access outside what the program may
  access. `Safe x Q` says that `x` does not fault and that `Q` holds of the value it
  returns, if it returns one. `Refines x o R` compares a run with a computation that
  accesses nothing: `x` does not fault and returns where `o` has a value, with values that
  `R` relates. The rules follow the ways a run is put together.
-/

import Mathlib.Tactic

namespace Panthera.Lib.Fault

variable {ε α β σ : Type}

/-- `x` does not fault, and `Q` holds of what it returns. -/
def Safe (x : ExceptT ε Option α) (Q : α → Prop) : Prop := ∃ r, x.run = some r ∧ ∀ a, r = .ok a → Q a

variable {a : α} {y : ExceptT ε Option α} {g : σ → α → ExceptT ε Option σ}

namespace Safe

variable {x : ExceptT ε Option α} {f : α → ExceptT ε Option β} {P : α → Prop} {Q : β → Prop}

theorem pure (h : P a) : Safe (pure a : ExceptT ε Option α) P := ⟨.ok a, rfl, fun _ he => by cases he; exact h⟩

theorem throw {e : ε} : Safe (throw e : ExceptT ε Option α) P := ⟨.error e, rfl, fun _ he => by cases he⟩

/-- An access that is allowed. -/
theorem access {o : Option α} (ho : o = some a) (h : P a) : Safe (liftM o : ExceptT ε Option α) P := by
  subst ho
  exact ⟨.ok a, rfl, fun _ he => by cases he; exact h⟩

theorem bind (hx : Safe x P) (hf : ∀ a, P a → Safe (f a) Q) : Safe (x >>= f) Q := by
  obtain ⟨r, hr, hP⟩ := hx
  have hrun : (x >>= f).run = x.run.bind (ExceptT.bindCont f) := rfl
  rw [Safe, hrun, hr]
  cases r with
  | error e => exact ⟨.error e, rfl, fun _ he => by cases he⟩
  | ok a => exact hf a (hP a rfl)

theorem ite {c : Prop} [Decidable c] (hx : c → Safe x P) (hy : ¬ c → Safe y P) : Safe (if c then x else y) P := by
  split
  · exact hx ‹_›
  · exact hy ‹_›

/-- What every turn of a loop keeps, the loop keeps. -/
theorem foldlM {I : σ → Prop} : ∀ {l : List α}, (∀ a ∈ l, ∀ s, I s → Safe (g s a) I) →
    ∀ {s : σ}, I s → Safe (l.foldlM g s) I := by
  intro l
  induction l with
  | nil => intro _ s hs; exact .pure hs
  | cons a l ih =>
    intro hg s hs
    rw [List.foldlM_cons]
    exact (hg a List.mem_cons_self s hs).bind fun s hs => ih (fun b hb => hg b (List.mem_cons_of_mem _ hb)) hs

theorem not_fault (hx : Safe x P) : x.run ≠ none := by
  obtain ⟨r, hr, -⟩ := hx
  rw [hr]
  exact Option.some_ne_none r

theorem of_ok (hx : Safe x P) (h : x.run = some (.ok a)) : P a := by
  obtain ⟨r, hr, hP⟩ := hx
  rw [hr, Option.some.injEq] at h
  exact hP a h

end Safe

variable {x : ExceptT ε Option α} {f : α → ExceptT ε Option β}

theorem run_bind_ok (h : x.run = some (.ok a)) : (x >>= f).run = (f a).run := by
  have hrun : (x >>= f).run = x.run.bind (ExceptT.bindCont f) := rfl
  rw [hrun, h]
  rfl

theorem run_bind_fault (h : x.run = none) : (x >>= f).run = none := by
  have hrun : (x >>= f).run = x.run.bind (ExceptT.bindCont f) := rfl
  rw [hrun, h]
  rfl

/-- A loop whose turns go through where `p` holds and fault where it does not. -/
theorem foldlM_not_fault_iff {p : α → Prop} : ∀ {l : List α},
    (∀ a ∈ l, p a → ∀ s, ∃ s', (g s a).run = some (.ok s')) → (∀ a ∈ l, ¬ p a → ∀ s, (g s a).run = none) →
    ∀ s, (l.foldlM g s).run ≠ none ↔ ∀ a ∈ l, p a := by
  intro l
  induction l with
  | nil =>
    intro _ _ s
    simp
  | cons a l ih =>
    intro hok hbad s
    rw [List.foldlM_cons, List.forall_mem_cons]
    by_cases ha : p a
    · obtain ⟨s', hs'⟩ := hok a List.mem_cons_self ha s
      rw [run_bind_ok hs', ih (fun b hb => hok b (List.mem_cons_of_mem _ hb))
        (fun b hb => hbad b (List.mem_cons_of_mem _ hb))]
      exact (and_iff_right ha).symm
    · rw [run_bind_fault (hbad a List.mem_cons_self ha s)]
      exact iff_of_false (fun h => h rfl) fun h => ha h.1

/-- `x` does not fault, and returns where `o` has a value, the two values being related. -/
def Refines (x : ExceptT ε Option α) (o : Option β) (R : α → β → Prop) : Prop :=
  (∃ e, x.run = some (.error e) ∧ o = none) ∨ ∃ a b, x.run = some (.ok a) ∧ o = some b ∧ R a b

namespace Refines

variable {γ : Type} {x : ExceptT ε Option α} {o : Option β} {R : α → β → Prop}

theorem pure {b : β} (h : R a b) : Refines (pure a : ExceptT ε Option α) (some b) R := .inr ⟨a, b, rfl, rfl, h⟩

theorem throw {e : ε} : Refines (throw e : ExceptT ε Option α) (none : Option β) R := .inl ⟨e, rfl, rfl⟩

theorem bind {f : α → ExceptT ε Option γ} {δ : Type} {g : β → Option δ} {S : γ → δ → Prop} (hx : Refines x o R)
    (hf : ∀ a b, o = some b → R a b → Refines (f a) (g b) S) : Refines (x >>= f) (o.bind g) S := by
  have hrun : (x >>= f).run = x.run.bind (ExceptT.bindCont f) := rfl
  obtain ⟨e, hx, rfl⟩ | ⟨a, b, hx, rfl, hR⟩ := hx
  · exact .inl ⟨e, by rw [hrun, hx]; rfl, rfl⟩
  · have := hf a b rfl hR
    rw [Refines, run_bind_ok hx]
    exact this

/-- An access that is allowed, and what follows it. -/
theorem access {c : Option γ} {v : γ} {f : γ → ExceptT ε Option α} (hc : c = some v) (hf : Refines (f v) o R) :
    Refines ((liftM c : ExceptT ε Option γ) >>= f) o R := by
  subst hc
  exact hf

theorem ite {c : Prop} [Decidable c] {o' : Option β} (hx : c → Refines x o R) (hy : ¬ c → Refines y o' R) :
    Refines (if c then x else y) (if c then o else o') R := by
  split
  · exact hx ‹_›
  · exact hy ‹_›

end Refines

end Panthera.Lib.Fault
