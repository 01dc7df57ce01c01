/-
  Panthera.Lib.Search — a depth-first search that keeps no marks.

  A vertex answers, or hands the search on to others in turn; 0 is no answer. The search is
  cut off below a given depth (`none`), and what it says before is what it says with more
  depth (`seek_mono`).

  It returns the answer of a vertex that it leads to (`seek_sound`), and 0 only if they are
  all 0 (`seek_zero`). If finitely many vertices hand on, it returns at every vertex where
  there is no cycle (`seek_total`); on a cycle where nothing answers it never does
  (`seek_cycle`).
-/

import Mathlib.Logic.Relation
import Mathlib.Order.WellFoundedSet
import Mathlib.Tactic

namespace Panthera.Lib.Search

variable {ν α : Type} [Zero α] [DecidableEq α]

/-- The first answer that is not 0; `none` where one of those before it does not come. -/
def first (go : ν → Option α) : List ν → Option α
  | [] => some 0
  | v :: vs =>
    match go v with
    | none => none
    | some a => if a ≠ 0 then some a else first go vs

theorem first_cons (go : ν → Option α) (v : ν) (vs : List ν) : first go (v :: vs) =
    match go v with
    | none => none
    | some a => if a ≠ 0 then some a else first go vs := rfl

section First

variable {go go' : ν → Option α} {vs : List ν} {a : α}

theorem first_mono (h : ∀ v ∈ vs, ∀ a, go v = some a → go' v = some a) (ha : first go vs = some a) : first go' vs = some a := by
  induction vs with
  | nil => exact ha
  | cons v vs ih =>
    rw [first_cons] at ha ⊢
    cases hv : go v with
    | none =>
      rw [hv] at ha
      cases ha
    | some b =>
      rw [hv] at ha
      rw [h v List.mem_cons_self b hv]
      by_cases hb : b ≠ 0
      · simpa [hb] using ha
      · simp only [hb, if_false] at ha ⊢
        exact ih (fun u hu => h u (List.mem_cons_of_mem _ hu)) ha

theorem mem_of_first (ha : first go vs = some a) (hne : a ≠ 0) : ∃ v ∈ vs, go v = some a := by
  induction vs with
  | nil =>
    cases ha
    exact absurd rfl hne
  | cons v vs ih =>
    rw [first_cons] at ha
    cases hv : go v with
    | none =>
      rw [hv] at ha
      cases ha
    | some b =>
      rw [hv] at ha
      by_cases hb : b ≠ 0
      · simp only [hb, ne_eq, not_false_eq_true, if_true] at ha
        exact ⟨v, List.mem_cons_self, hv.trans ha⟩
      · simp only [hb, if_false] at ha
        obtain ⟨u, hu, hgo⟩ := ih ha
        exact ⟨u, List.mem_cons_of_mem _ hu, hgo⟩

theorem first_zero : first go vs = some 0 ↔ ∀ v ∈ vs, go v = some 0 := by
  induction vs with
  | nil => simp [first]
  | cons v vs ih =>
    rw [first_cons]
    cases hv : go v with
    | none => simp [hv]
    | some b =>
      by_cases hb : b = 0
      · simp [hv, hb, ih]
      · simp [hv, hb]

theorem first_isSome (h : ∀ v ∈ vs, (go v).isSome) : (first go vs).isSome := by
  induction vs with
  | nil => rfl
  | cons v vs ih =>
    rw [first_cons]
    obtain ⟨b, hb⟩ := Option.isSome_iff_exists.mp (h v List.mem_cons_self)
    rw [hb]
    by_cases hz : b ≠ 0
    · simp [hz]
    · simpa [hz] using ih fun u hu => h u (List.mem_cons_of_mem _ hu)

end First

section Seek

variable (next : ν → Option (List ν)) (answer : ν → α)

def seek : Nat → ν → Option α
  | 0, _ => none
  | depth + 1, v =>
    match next v with
    | none => some (answer v)
    | some us => first (seek depth) us

theorem seek_succ (depth : Nat) (v : ν) : seek next answer (depth + 1) v =
    match next v with
    | none => some (answer v)
    | some us => first (seek next answer depth) us := rfl

/-- The search goes from `v` to `u`. -/
def Leads (v u : ν) : Prop := ∃ us, next v = some us ∧ u ∈ us

variable {next answer} {v : ν} {a : α}

theorem seek_answer (h : next v = none) (depth : Nat) : seek next answer (depth + 1) v = some (answer v) := by
  rw [seek_succ, h]

theorem seek_next {us : List ν} (h : next v = some us) (depth : Nat) :
    seek next answer (depth + 1) v = first (seek next answer depth) us := by
  rw [seek_succ, h]

theorem seek_mono {depth depth' : Nat} (hle : depth ≤ depth') (h : seek next answer depth v = some a) :
    seek next answer depth' v = some a := by
  induction depth generalizing depth' v a with
  | zero => cases h
  | succ depth ih =>
    obtain ⟨depth', rfl⟩ : ∃ n, depth' = n + 1 := ⟨depth' - 1, by omega⟩
    cases hv : next v with
    | none =>
      rw [seek_answer hv] at h ⊢
      exact h
    | some us =>
      rw [seek_next hv] at h ⊢
      exact first_mono (fun u _ b hb => ih (by omega) hb) h

theorem seek_sound {depth : Nat} (h : seek next answer depth v = some a) (hne : a ≠ 0) :
    ∃ u, Relation.ReflTransGen (Leads next) v u ∧ next u = none ∧ answer u = a := by
  induction depth generalizing v with
  | zero => cases h
  | succ depth ih =>
    cases hv : next v with
    | none =>
      rw [seek_answer hv] at h
      exact ⟨v, .refl, hv, Option.some.inj h⟩
    | some us =>
      rw [seek_next hv] at h
      obtain ⟨w, hw, hseek⟩ := mem_of_first h hne
      obtain ⟨u, hu, hend⟩ := ih hseek
      exact ⟨u, .head ⟨us, hv, hw⟩ hu, hend⟩

theorem seek_zero {depth : Nat} (h : seek next answer depth v = some 0) {u : ν}
    (hu : Relation.ReflTransGen (Leads next) v u) (hend : next u = none) : answer u = 0 := by
  induction hu using Relation.ReflTransGen.head_induction_on generalizing depth with
  | refl =>
    cases depth with
    | zero => cases h
    | succ depth =>
      rw [seek_answer hend] at h
      exact Option.some.inj h
  | head hvw _ ih =>
    obtain ⟨us, hv, hw⟩ := hvw
    cases depth with
    | zero => cases h
    | succ depth =>
      rw [seek_next hv] at h
      exact ih (first_zero.mp h _ hw)

/-- What each of the next vertices returns, the vertex returns. -/
theorem seek_isSome_of_next (h : ∀ u, Leads next v u → ∃ depth, (seek next answer depth u).isSome) :
    ∃ depth, (seek next answer depth v).isSome := by
  cases hv : next v with
  | none => exact ⟨1, by rw [seek_answer hv]; rfl⟩
  | some us =>
    -- one depth that is enough for all of them
    have hall : ∃ depth, ∀ u ∈ us, (seek next answer depth u).isSome := by
      have hus : ∀ u ∈ us, ∃ depth, (seek next answer depth u).isSome := fun u hu => h u ⟨us, hv, hu⟩
      clear h hv
      induction us with
      | nil => exact ⟨0, fun u hu => by cases hu⟩
      | cons u us ih =>
        obtain ⟨d, hd⟩ := hus u List.mem_cons_self
        obtain ⟨d', hd'⟩ := ih fun w hw => hus w (List.mem_cons_of_mem _ hw)
        refine ⟨max d d', fun w hw => ?_⟩
        rcases List.mem_cons.mp hw with rfl | hw
        · obtain ⟨a, ha⟩ := Option.isSome_iff_exists.mp hd
          rw [seek_mono (Nat.le_max_left d d') ha]
          rfl
        · obtain ⟨a, ha⟩ := Option.isSome_iff_exists.mp (hd' w hw)
          rw [seek_mono (Nat.le_max_right d d') ha]
          rfl
    obtain ⟨depth, hdepth⟩ := hall
    refine ⟨depth + 1, ?_⟩
    rw [seek_next hv]
    exact first_isSome hdepth

theorem seek_total (hfin : {v | (next v).isSome}.Finite) (h : ∀ v, ¬ Relation.TransGen (Leads next) v v) (v : ν) :
    ∃ depth, (seek next answer depth v).isSome := by
  let below : ν → ν → Prop := fun u v => Relation.TransGen (Leads next) v u
  have : IsStrictOrder ν below := { irrefl := h, trans := fun _ _ _ h h' => Relation.TransGen.trans h' h }
  have hleaf : ∀ v, ¬ (next v).isSome → ∃ depth, (seek next answer depth v).isSome := by
    intro v hv
    exact ⟨1, by rw [seek_answer (by simpa using hv)]; rfl⟩
  by_cases hv : (next v).isSome
  · have hwf : {v | (next v).isSome}.WellFoundedOn below := hfin.wellFoundedOn
    refine hwf.induction (P := fun v => ∃ depth, (seek next answer depth v).isSome) hv fun v _ ih => ?_
    refine seek_isSome_of_next fun u hu => ?_
    by_cases hus : (next u).isSome
    · exact ih u hus (.single hu)
    · exact hleaf u hus
  · exact hleaf v hv

theorem seek_cycle (hnone : ∀ v, next v = none → answer v = 0) {v : ν} (hcycle : Relation.TransGen (Leads next) v v)
    (depth : Nat) : seek next answer depth v = none := by
  have hsound : ∀ {depth : Nat} {w : ν} {a : α}, seek next answer depth w = some a → a = 0 := by
    intro depth w a h
    by_contra hne
    obtain ⟨u, -, hend, rfl⟩ := seek_sound h hne
    exact hne (hnone u hend)
  -- every vertex on the way round has the next one among its own
  have hround : ∀ w, Relation.TransGen (Leads next) w v → seek next answer depth w = none := by
    induction depth with
    | zero => intro w _; rfl
    | succ depth ih =>
      intro w hw
      obtain ⟨u, ⟨us, hus, hu⟩, huv⟩ : ∃ u, Leads next w u ∧ Relation.TransGen (Leads next) u v := by
        rcases Relation.TransGen.head'_iff.mp hw with ⟨u, hwu, huv⟩
        rcases Relation.reflTransGen_iff_eq_or_transGen.mp huv with rfl | huv
        · exact ⟨v, hwu, hcycle⟩
        · exact ⟨u, hwu, huv⟩
      rw [seek_next hus]
      cases hf : first (seek next answer depth) us with
      | none => rfl
      | some a =>
        exfalso
        have ha : seek next answer (depth + 1) w = some a := by rw [seek_next hus, hf]
        rw [hsound ha] at hf
        have := first_zero.mp hf u hu
        rw [ih u huv] at this
        cases this
  exact hround v hcycle

end Seek

end Panthera.Lib.Search
