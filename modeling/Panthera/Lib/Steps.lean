/-
  Panthera.Lib.Steps — programs with a state that return a value, stop with a status and
  keep the state, or fault.

  `Ends x s a s'` says that `x`, started in `s`, returns `a` and leaves `s'`. A run of a
  sequence is a run of its parts (`ends_bind`), and so on for the other ways of putting
  programs together, so that what a program has done is read off its text by rewriting.
-/

import Mathlib.Tactic

namespace Panthera.Lib.Steps

variable {ε σ α β : Type}

abbrev Program (ε σ : Type) := ExceptT ε (StateT σ Option)

namespace Program

/-- What a run from `s` comes to; `none` is a fault or no end. -/
def ends (x : Program ε σ α) (s : σ) : Option (Except ε α × σ) := x.run.run s

/-- A run that may fault, without a state. -/
def ofFallible (x : ExceptT ε Option α) : Program ε σ α := ExceptT.mk fun s => x.run.map (·, s)

/-- A call that always returns, and changes the state. -/
def call (f : σ → α × σ) : Program ε σ α := ExceptT.mk fun s => some (.ok (f s).1, (f s).2)

/-- The status of a program as a value. -/
def attempt (x : Program ε σ α) : Program ε σ (Except ε α) := ExceptT.mk fun s => (x.ends s).map fun r => (.ok r.1, r.2)

end Program

/-- From `s`, the program returns `a` and leaves `s'`. -/
def Ends (x : Program ε σ α) (s : σ) (a : α) (s' : σ) : Prop := x.ends s = some (.ok a, s')

variable {x : Program ε σ α} {f : α → Program ε σ β} {s s' : σ} {a : α} {b : β} {e : ε}

theorem ends_bind : Ends (x >>= f) s b s' ↔ ∃ a s₁, Ends x s a s₁ ∧ Ends (f a) s₁ b s' := by
  have hrun : (x >>= f).ends s = (x.ends s).bind fun r => ExceptT.bindCont f r.1 r.2 := rfl
  rw [Ends, hrun]
  constructor
  · intro h
    obtain ⟨⟨r, s₁⟩, hx, hf⟩ := Option.bind_eq_some_iff.mp h
    cases r with
    | error e => cases hf
    | ok a => exact ⟨a, s₁, hx, hf⟩
  · rintro ⟨a, s₁, hx, hf⟩
    rw [hx]
    exact hf

@[simp] theorem ends_pure {a' : α} : Ends (pure a : Program ε σ α) s a' s' ↔ a = a' ∧ s = s' := by
  have hrun : (pure a : Program ε σ α).ends s = some (.ok a, s) := rfl
  simp [Ends, hrun]

@[simp] theorem ends_throw : ¬ Ends (throw e : Program ε σ α) s a s' := by
  have hrun : (throw e : Program ε σ α).ends s = some (.error e, s) := rfl
  simp [Ends, hrun]

@[simp] theorem ends_call {g : σ → α × σ} : Ends (Program.call g : Program ε σ α) s a s' ↔ g s = (a, s') := by
  have hrun : (Program.call g : Program ε σ α).ends s = some (.ok (g s).1, (g s).2) := rfl
  simp [Ends, hrun, Prod.ext_iff]

@[simp] theorem ends_ofFallible {y : ExceptT ε Option α} :
    Ends (Program.ofFallible y) s a s' ↔ y.run = some (.ok a) ∧ s = s' := by
  have hrun : (Program.ofFallible y : Program ε σ α).ends s = y.run.map (·, s) := rfl
  simp [Ends, hrun]

@[simp] theorem ends_access {o : Option α} : Ends (Program.ofFallible (liftM o : ExceptT ε Option α)) s a s' ↔ o = some a ∧ s = s' := by
  rw [ends_ofFallible]
  refine and_congr_left fun _ => ?_
  cases o with
  | none =>
    have hrun : (liftM (none : Option α) : ExceptT ε Option α).run = none := rfl
    simp [hrun]
  | some b =>
    have hrun : (liftM (some b) : ExceptT ε Option α).run = some (.ok b) := rfl
    simp [hrun]

@[simp] theorem ends_attempt {r : Except ε α} : Ends x.attempt s r s' ↔ x.ends s = some (r, s') := by
  have hrun : x.attempt.ends s = (x.ends s).map fun r => (.ok r.1, r.2) := rfl
  simp [Ends, hrun]

theorem ends_ite {c : Prop} [Decidable c] {y : Program ε σ α} :
    Ends (if c then x else y) s a s' ↔ (c ∧ Ends x s a s') ∨ (¬ c ∧ Ends y s a s') := by
  by_cases hc : c <;> simp [hc]

/-- Every value of a `mapM` is one of a turn. -/
theorem ends_mapM {γ : Type} {g : γ → Program ε σ α} : ∀ {l : List γ} {s s' : σ} {as : List α}, Ends (l.mapM g) s as s' →
    ∀ a ∈ as, ∃ c ∈ l, ∃ s₁ s₂, Ends (g c) s₁ a s₂ := by
  intro l
  induction l with
  | nil =>
    intro s s' as h a ha
    rw [List.mapM_nil] at h
    obtain ⟨rfl, -⟩ := ends_pure.mp h
    cases ha
  | cons c l ih =>
    intro s s' as h a ha
    rw [List.mapM_cons] at h
    obtain ⟨b, s₁, hb, h⟩ := ends_bind.mp h
    obtain ⟨bs, s₂, hbs, h⟩ := ends_bind.mp h
    obtain ⟨rfl, -⟩ := ends_pure.mp h
    rcases List.mem_cons.mp ha with rfl | ha
    · exact ⟨c, List.mem_cons_self, s, s₁, hb⟩
    · obtain ⟨d, hd, hrun⟩ := ih hbs a ha
      exact ⟨d, List.mem_cons_of_mem _ hd, hrun⟩

/-! ## What a program keeps -/

/-- However a run ends, it leaves the part `g` of the state as it was. -/
def Keeps {γ : Type} (g : σ → γ) (x : Program ε σ α) : Prop := ∀ s r s', x.ends s = some (r, s') → g s' = g s

namespace Keeps

variable {γ δ : Type} {g : σ → γ}

theorem pure : Keeps g (pure a : Program ε σ α) := fun s r s' h => by
  have hrun : (Pure.pure a : Program ε σ α).ends s = some (.ok a, s) := rfl
  rw [hrun] at h
  cases h
  rfl

theorem throw : Keeps g (throw e : Program ε σ α) := fun s r s' h => by
  have hrun : (MonadExcept.throw e : Program ε σ α).ends s = some (.error e, s) := rfl
  rw [hrun] at h
  cases h
  rfl

theorem call {c : σ → α × σ} (hc : ∀ s, g (c s).2 = g s) : Keeps g (Program.call c : Program ε σ α) := fun s r s' h => by
  have hrun : (Program.call c : Program ε σ α).ends s = some (.ok (c s).1, (c s).2) := rfl
  rw [hrun] at h
  cases h
  exact hc s

theorem attempt (hx : Keeps g x) : Keeps g x.attempt := fun s r s' h => by
  have hrun : x.attempt.ends s = (x.ends s).map fun r => (.ok r.1, r.2) := rfl
  rw [hrun] at h
  obtain ⟨r', hr', hr⟩ := Option.map_eq_some_iff.mp h
  cases hr
  exact hx s _ _ hr'

theorem bind (hx : Keeps g x) (hf : ∀ a, Keeps g (f a)) : Keeps g (x >>= f) := fun s r s' h => by
  have hrun : (x >>= f).ends s = (x.ends s).bind fun r => ExceptT.bindCont f r.1 r.2 := rfl
  rw [hrun] at h
  obtain ⟨⟨r₁, s₁⟩, hr₁, h⟩ := Option.bind_eq_some_iff.mp h
  have h₁ := hx s r₁ s₁ hr₁
  cases r₁ with
  | error e =>
    cases h
    exact h₁
  | ok a => exact (hf a s₁ r s' h).trans h₁

theorem ite {c : Prop} [Decidable c] {y : Program ε σ α} (hx : Keeps g x) (hy : Keeps g y) : Keeps g (if c then x else y) := by
  split
  · exact hx
  · exact hy

theorem mapM {l : List δ} {f : δ → Program ε σ α} (hf : ∀ d, Keeps g (f d)) : Keeps g (l.mapM f) := by
  induction l with
  | nil => exact pure
  | cons d l ih =>
    rw [List.mapM_cons]
    exact (hf d).bind fun _ => ih.bind fun _ => pure

theorem forM {l : List δ} {f : δ → Program ε σ PUnit} (hf : ∀ d, Keeps g (f d)) : Keeps g (l.forM f) := by
  induction l with
  | nil => exact pure
  | cons d l ih => exact (hf d).bind fun _ => ih

theorem of_ends (hx : Keeps g x) (h : Ends x s a s') : g s' = g s := hx s _ _ h

end Keeps

/-! ## Evaluation -/

/-- What is returned and left, if anything is. -/
def Program.returned (x : Program ε σ α) (s : σ) : Option (α × σ) :=
  match x.ends s with
  | some (.ok a, s') => some (a, s')
  | _ => none

/-- A run whose outcome has been evaluated, through `g`. -/
theorem exists_ends_of_returned {γ : Type} {g : α × σ → γ} {c : γ} (h : (x.returned s).map g = some c) :
    ∃ a s', Ends x s a s' ∧ g (a, s') = c := by
  unfold Program.returned at h
  split at h
  · rename_i a s' hx
    exact ⟨a, s', hx, Option.some.inj h⟩
  · cases h

end Panthera.Lib.Steps
