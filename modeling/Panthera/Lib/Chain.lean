/-
  Panthera.Lib.Chain — chains of 64-bit words in memory, and runs that visit them.

  A word of a chain says how far on the next one is (`next`), and the last says 0. A run
  that visits a chain and changes it on the way sees the words as they were at first,
  as long as what it does at one word leaves the words still to come alone. So such a
  run is a fold over the words of the memory it started from.

  Proved: this for a loop over chains (`foldlM_visits`), with what a single visit finds
  (`foldl_visit`).
-/

import Panthera.Lib.Bytes

namespace Panthera.Lib.Chain

open Lib.Bytes

section Words

variable (next : UInt64 → Nat)

/-- The chain from `a` on, at most `n` words, as far as it stays below `hi`. -/
def wordsWithin (m : Mem) (hi : Nat) : Nat → Nat → List (Nat × UInt64)
  | 0, _ => []
  | n + 1, a =>
    if hi < a + 8 then []
    else (a, read64 m a) :: if next (read64 m a) = 0 then [] else wordsWithin m hi n (a + next (read64 m a))

variable {next}

theorem mem_wordsWithin {m : Mem} {hi : Nat} : ∀ {n a : Nat} {v : Nat × UInt64}, v ∈ wordsWithin next m hi n a →
    a ≤ v.1 ∧ v.1 + 8 ≤ hi ∧ v.2 = read64 m v.1 := by
  intro n
  induction n with
  | zero => intro a v hv; cases hv
  | succ n ih =>
    intro a v hv
    unfold wordsWithin at hv
    split at hv
    · cases hv
    · rcases List.mem_cons.mp hv with rfl | hv
      · exact ⟨Nat.le_refl _, by omega, rfl⟩
      · split at hv
        · cases hv
        · have := ih hv
          exact ⟨by omega, this.2⟩

end Words

/-! ## Runs -/

section Runs

variable {σ V : Type} {act : V → σ → σ} {Holds : V → σ → Prop} {Apart : V → V → Prop}
  (hkeep : ∀ v u st, Apart v u → Holds u st → Holds u (act v st))
include hkeep

theorem foldl_holds {u : V} : ∀ {vs : List V} {st : σ}, (∀ v ∈ vs, Apart v u) → Holds u st →
    Holds u (vs.foldl (fun st v => act v st) st) := by
  intro vs
  induction vs with
  | nil => intro st _ h; exact h
  | cons v vs ih =>
    intro st hap h
    exact ih (fun w hw => hap w (List.mem_cons_of_mem _ hw)) (hkeep v u st (hap v List.mem_cons_self) h)

/-- Each visit of a run finds its word as it was at first, and is followed by visits that are
    apart from it. -/
theorem foldl_visit {vs : List V} {st : σ} (hp : vs.Pairwise Apart) (hst : ∀ v ∈ vs, Holds v st) {v : V} (hv : v ∈ vs) :
    ∃ (st1 : σ) (rest : List V), Holds v st1 ∧ (∀ u ∈ rest, u ∈ vs ∧ Apart v u) ∧
      vs.foldl (fun st v => act v st) st = rest.foldl (fun st v => act v st) (act v st1) := by
  obtain ⟨before, rest, rfl⟩ := List.append_of_mem hv
  obtain ⟨-, hrest, hcross⟩ := List.pairwise_append.mp hp
  refine ⟨before.foldl (fun st v => act v st) st, rest, ?_, fun u hu => ⟨by simp [hu], (List.pairwise_cons.mp hrest).1 u hu⟩, ?_⟩
  · exact foldl_holds hkeep (fun w hw => hcross w hw v List.mem_cons_self) (hst v hv)
  · rw [List.foldl_append, List.foldl_cons]

/-- A loop whose every turn visits what it finds, found as it was before the loop. -/
theorem foldlM_visits {α : Type} {f : σ → α → Option σ} {visits : α → List V} : ∀ {l : List α} {st : σ},
    (∀ a ∈ l, ∀ st, (∀ v ∈ visits a, Holds v st) → f st a = some ((visits a).foldl (fun st v => act v st) st)) →
    (l.flatMap visits).Pairwise Apart → (∀ v ∈ l.flatMap visits, Holds v st) →
    l.foldlM f st = some ((l.flatMap visits).foldl (fun st v => act v st) st) := by
  intro l
  induction l with
  | nil => intros; rfl
  | cons a l ih =>
    intro st hf hp hst
    rw [List.flatMap_cons] at hp hst
    obtain ⟨-, hl, hcross⟩ := List.pairwise_append.mp hp
    rw [List.foldlM_cons, hf a List.mem_cons_self st fun v hv => hst v (List.mem_append_left _ hv)]
    rw [List.flatMap_cons, List.foldl_append]
    refine ih (fun b hb => hf b (List.mem_cons_of_mem _ hb)) hl fun u hu => ?_
    exact foldl_holds hkeep (fun v hv => hcross v hv u hu) (hst u (List.mem_append_right _ hu))

end Runs

end Panthera.Lib.Chain
