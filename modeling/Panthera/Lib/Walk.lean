/-
  Panthera.Lib.Walk — a depth-limited depth-first search with one visited list shared
  by all paths, for a node that offers something.

  An offer is strong or weak. The walk returns the first strong offer it meets and
  stops there; without one it returns the first weak offer. A node is marked when it
  is first met, however deep, and is never entered again.

  Proved: the walk's answer is the choice (`pick`) among the offers of the nodes of
  the offer-free search `dfs`, in that order (`walk_spec`); those nodes are within the
  depth limit (`dfs_within`). `dfs` may miss a node that a shorter path reaches, but not
  where the height of the graph stays below the limit (`dfs_complete`).
-/

import Mathlib.Tactic

namespace Panthera.Lib.Walk

inductive Offer (α : Type) where
  | none
  | weak (a : α)
  | strong (a : α)
  deriving DecidableEq, Repr

variable {ν α : Type}

namespace Offer

/-- The earlier of two offers, unless only the later one is strong. -/
def orElse : Offer α → Offer α → Offer α
  | .strong a, _ => .strong a
  | .weak _, .strong b => .strong b
  | .weak a, _ => .weak a
  | .none, o => o

def isStrong : Offer α → Bool
  | .strong _ => true
  | _ => false

@[simp] theorem none_orElse (o : Offer α) : orElse .none o = o := by cases o <;> rfl

@[simp] theorem orElse_none (o : Offer α) : o.orElse .none = o := by cases o <;> rfl

theorem orElse_assoc (a b c : Offer α) : (a.orElse b).orElse c = a.orElse (b.orElse c) := by
  cases a <;> cases b <;> cases c <;> rfl

theorem orElse_of_strong {a : Offer α} (h : a.isStrong = true) (b : Offer α) : a.orElse b = a := by
  cases a <;> first | rfl | cases h

theorem orElse_strong {a b : Offer α} (ha : a.isStrong = false) (hb : b.isStrong = true) : a.orElse b = b := by
  cases b with
  | strong c =>
    cases a with
    | strong _ => exact absurd ha (by simp [isStrong])
    | _ => rfl
  | _ => exact absurd hb (by simp [isStrong])

theorem weak_orElse (a : α) {b : Offer α} (hb : b.isStrong = false) : orElse (.weak a) b = .weak a := by
  cases b with
  | strong c => exact absurd hb (by simp [isStrong])
  | _ => rfl

theorem isStrong_orElse (a b : Offer α) : (a.orElse b).isStrong = (a.isStrong || b.isStrong) := by
  cases a <;> cases b <;> rfl

end Offer

open Offer

/-- The choice among the offers of a list of nodes. -/
def pick (offer : ν → Offer α) (l : List ν) : Offer α := l.foldr (fun v o => (offer v).orElse o) .none

section Pick

variable {offer : ν → Offer α}

@[simp] theorem pick_nil : pick offer [] = .none := rfl

@[simp] theorem pick_cons (v : ν) (l : List ν) : pick offer (v :: l) = (offer v).orElse (pick offer l) := rfl

theorem pick_append (l l' : List ν) : pick offer (l ++ l') = (pick offer l).orElse (pick offer l') := by
  induction l with
  | nil => simp
  | cons v l ih => rw [List.cons_append, pick_cons, ih, pick_cons, Offer.orElse_assoc]

variable {l : List ν}

theorem pick_mem : ∀ {o : Offer α}, pick offer l = o → o ≠ .none → ∃ v ∈ l, offer v = o := by
  induction l with
  | nil => intro o h hne; exact absurd h.symm hne
  | cons v l ih =>
    intro o h hne
    rw [pick_cons] at h
    cases hv : offer v with
    | strong a =>
      rw [hv] at h
      exact ⟨v, List.mem_cons_self, hv.trans h⟩
    | none =>
      rw [hv, none_orElse] at h
      obtain ⟨u, hu, he⟩ := ih h hne
      exact ⟨u, List.mem_cons_of_mem _ hu, he⟩
    | weak a =>
      rw [hv] at h
      cases hp : pick offer l with
      | strong b =>
        rw [hp] at h
        obtain ⟨u, hu, he⟩ := ih hp (by simp)
        exact ⟨u, List.mem_cons_of_mem _ hu, he.trans h⟩
      | _ =>
        rw [hp] at h
        exact ⟨v, List.mem_cons_self, hv.trans h⟩

theorem pick_strong_iff : (pick offer l).isStrong = true ↔ ∃ v ∈ l, (offer v).isStrong = true := by
  induction l with
  | nil => simp [Offer.isStrong]
  | cons v l ih =>
    rw [pick_cons, isStrong_orElse, Bool.or_eq_true, ih]
    simp

theorem pick_none_iff : pick offer l = .none ↔ ∀ v ∈ l, offer v = .none := by
  induction l with
  | nil => simp
  | cons v l ih =>
    rw [pick_cons, List.forall_mem_cons, ← ih]
    cases offer v <;> cases pick offer l <;> simp [Offer.orElse]

end Pick

/-! ## The search -/

/-- The nodes a search from `vis` adds. -/
def new (vis vis' : List ν) : List ν := vis'.drop vis.length

theorem new_append (vis l : List ν) : new vis (vis ++ l) = l := by simp [new]

theorem foldl_extends {f : List ν → ν → List ν} (h : ∀ vis u, ∃ new, f vis u = vis ++ new) :
    ∀ (us vis : List ν), ∃ new, us.foldl f vis = vis ++ new := by
  intro us
  induction us with
  | nil => intro vis; exact ⟨[], by simp⟩
  | cons u us ih =>
    intro vis
    obtain ⟨n1, h1⟩ := h vis u
    obtain ⟨n2, h2⟩ := ih (f vis u)
    exact ⟨n1 ++ n2, by rw [List.foldl_cons, h2, h1, List.append_assoc]⟩

variable [DecidableEq ν] (succ : ν → List ν) (offer : ν → Offer α)

/-- The loop over a node's successors, with the offer found so far. -/
def walkSuccs {τ : Type} (go : ν → τ → Offer α × τ) : List ν → Offer α → τ → Offer α × τ
  | [], o, vis => (o, vis)
  | u :: us, o, vis =>
    let r := go u vis
    if r.1.isStrong then r else walkSuccs go us (o.orElse r.1) r.2

/-- `walk d v vis` enters `v` with `d` levels left. -/
def walk : Nat → ν → List ν → Offer α × List ν
  | 0, _, vis => (.none, vis)
  | d + 1, v, vis =>
    if v ∈ vis then (.none, vis)
    else if (offer v).isStrong then (offer v, vis ++ [v])
    else walkSuccs (walk d) (succ v) (offer v) (vis ++ [v])

/-- The nodes of the search in the order it meets them, when nothing stops it. -/
def dfs : Nat → ν → List ν → List ν
  | 0, _, vis => vis
  | d + 1, v, vis => if v ∈ vis then vis else (succ v).foldl (fun vis u => dfs d u vis) (vis ++ [v])

section Spec

variable {succ offer}

theorem dfs_extends : ∀ (d : Nat) (v : ν) (vis : List ν), ∃ new, dfs succ d v vis = vis ++ new := by
  intro d
  induction d with
  | zero => intro v vis; exact ⟨[], by simp [dfs]⟩
  | succ d ih =>
    intro v vis
    unfold dfs
    split
    · exact ⟨[], by simp⟩
    · obtain ⟨new, h⟩ := foldl_extends (fun vis u => ih u vis) (succ v) (vis ++ [v])
      exact ⟨v :: new, by rw [h, List.append_assoc]; rfl⟩

/-- The walk answers with the choice among the nodes the search adds, and unless that
    is strong it has made the whole search. -/
def Follows (r : Offer α × List ν) (vis vis' : List ν) (offer : ν → Offer α) : Prop :=
  r.1 = pick offer (new vis vis') ∧ (r.1.isStrong = false → r.2 = vis')

omit [DecidableEq ν] in
theorem walkSuccs_spec {go : ν → List ν → Offer α × List ν} {f : List ν → ν → List ν}
    (hf : ∀ vis u, ∃ l, f vis u = vis ++ l) (hgo : ∀ u vis, Follows (go u vis) vis (f vis u) offer) :
    ∀ (us : List ν) (o : Offer α) (vis : List ν), o.isStrong = false →
      (walkSuccs go us o vis).1 = o.orElse (pick offer (new vis (us.foldl f vis))) ∧
      ((walkSuccs go us o vis).1.isStrong = false → (walkSuccs go us o vis).2 = us.foldl f vis) := by
  intro us
  induction us with
  | nil =>
    intro o vis _
    simp [walkSuccs, new]
  | cons u us ih =>
    intro o vis ho
    obtain ⟨l1, h1⟩ := hf vis u
    obtain ⟨l2, h2⟩ := foldl_extends hf us (f vis u)
    obtain ⟨hr, hv⟩ := hgo u vis
    rw [h1, new_append] at hr
    have hall : new vis ((u :: us).foldl f vis) = l1 ++ l2 := by
      rw [List.foldl_cons, h2, h1, List.append_assoc, new_append]
    rw [hall, pick_append, ← hr]
    unfold walkSuccs
    by_cases hstrong : (go u vis).1.isStrong = true
    · simp only [hstrong, if_true]
      refine ⟨?_, fun h => absurd h (by simp)⟩
      rw [Offer.orElse_of_strong hstrong, Offer.orElse_strong ho hstrong]
    · have hweak : (go u vis).1.isStrong = false := by simpa using hstrong
      simp only [hweak, Bool.false_eq_true, if_false]
      have ho' : (o.orElse (go u vis).1).isStrong = false := by rw [Offer.isStrong_orElse, ho, hweak]; rfl
      obtain ⟨h3, h4⟩ := ih (o.orElse (go u vis).1) (go u vis).2 ho'
      rw [hv hweak] at h3 h4 ⊢
      rw [h2, new_append] at h3
      refine ⟨?_, ?_⟩
      · rw [h3, Offer.orElse_assoc]
      · rw [List.foldl_cons]
        exact h4

omit [DecidableEq ν] in
/-- A loop that only looks at the successors chooses among them. -/
theorem walkSuccs_offers {τ : Type} (t : τ) : ∀ (us : List ν) (o : Offer α), o.isStrong = false →
    (walkSuccs (fun u t => (offer u, t)) us o t).1 = o.orElse (pick offer us) := by
  intro us
  induction us with
  | nil => intro o _; simp [walkSuccs]
  | cons u us ih =>
    intro o ho
    unfold walkSuccs
    by_cases hu : (offer u).isStrong = true
    · simp only [hu, if_true]
      rw [pick_cons, Offer.orElse_of_strong hu, Offer.orElse_strong ho hu]
    · have hu' : (offer u).isStrong = false := by simpa using hu
      simp only [hu', Bool.false_eq_true, if_false]
      rw [ih _ (by rw [Offer.isStrong_orElse, ho, hu']; rfl), pick_cons, Offer.orElse_assoc]

/-- The walk's answer is the choice among the nodes of the offer-free search. -/
theorem walk_spec : ∀ (d : Nat) (v : ν) (vis : List ν), Follows (walk succ offer d v vis) vis (dfs succ d v vis) offer := by
  intro d
  induction d with
  | zero =>
    intro v vis
    simp [Follows, walk, dfs, new]
  | succ d ih =>
    intro v vis
    unfold walk dfs Follows
    by_cases hvis : v ∈ vis
    · simp [hvis, new]
    · simp only [if_neg hvis]
      obtain ⟨l, hl⟩ := foldl_extends (fun vis u => dfs_extends d u vis) (succ v) (vis ++ [v])
      have hnew : new vis ((succ v).foldl (fun vis u => dfs succ d u vis) (vis ++ [v])) = v :: l := by
        rw [hl, List.append_assoc, new_append]
        rfl
      rw [hnew, pick_cons]
      by_cases hs : (offer v).isStrong = true
      · simp only [hs, if_true]
        exact ⟨(Offer.orElse_of_strong hs _).symm, fun h => absurd h (by simp)⟩
      · have hs' : (offer v).isStrong = false := by simpa using hs
        simp only [hs', Bool.false_eq_true, if_false]
        have := walkSuccs_spec (fun vis u => dfs_extends d u vis) (fun u vis => ih u vis) (succ v) (offer v) (vis ++ [v]) hs'
        rw [hl, new_append] at this
        rw [hl]
        exact this

/-! ## Where the search can get -/

/-- `Within k v u`: a path of at most `k` edges leads from `v` to `u`. -/
inductive Within (succ : ν → List ν) : Nat → ν → ν → Prop where
  | here {k : Nat} {v : ν} : Within succ k v v
  | step {k : Nat} {v w u : ν} : w ∈ succ v → Within succ k w u → Within succ (k + 1) v u

theorem dfs_within : ∀ (d : Nat) (v : ν) (vis : List ν), ∀ u ∈ dfs succ (d + 1) v vis, u ∈ vis ∨ Within succ d v u := by
  intro d
  induction d with
  | zero =>
    intro v vis u hu
    unfold dfs at hu
    split at hu
    · exact .inl hu
    · -- the successors are not entered any more
      have hid : ∀ (us vis : List ν), us.foldl (fun vis u => dfs succ 0 u vis) vis = vis := by
        intro us
        induction us with
        | nil => intro vis; rfl
        | cons _ us ih => intro vis; exact ih vis
      rw [hid] at hu
      rcases List.mem_append.mp hu with h | h
      · exact .inl h
      · exact .inr (List.mem_singleton.mp h ▸ .here)
  | succ d ih =>
    intro v vis u hu
    unfold dfs at hu
    split at hu
    · exact .inl hu
    · have hfold : ∀ (us vis : List ν), (∀ w ∈ us, w ∈ succ v) →
          u ∈ us.foldl (fun vis u => dfs succ (d + 1) u vis) vis → u ∈ vis ∨ Within succ (d + 1) v u := by
        intro us
        induction us with
        | nil => intro vis _ h; exact .inl h
        | cons w us ihl =>
          intro vis hsub h
          rcases ihl _ (fun x hx => hsub x (List.mem_cons_of_mem _ hx)) h with h | h
          · rcases ih w vis u h with h | h
            · exact .inl h
            · exact .inr (.step (hsub w List.mem_cons_self) h)
          · exact .inr h
      rcases hfold (succ v) (vis ++ [v]) (fun _ h => h) hu with h | h
      · rcases List.mem_append.mp h with h | h
        · exact .inl h
        · exact .inr (List.mem_singleton.mp h ▸ .here)
      · exact .inr h

/-! ## A search that the limit does not cut -/

/-- A height: it falls along every edge, so no path is longer than it. -/
def Height (succ : ν → List ν) (h : ν → Nat) : Prop := ∀ v, ∀ u ∈ succ v, h u < h v

variable {h : ν → Nat}

/-- With more levels than the height of `v`, every node the search adds has all its
    successors in the result. -/
theorem dfs_closed (hh : Height succ h) : ∀ (d : Nat) (v : ν) (vis : List ν), h v < d →
    v ∈ dfs succ d v vis ∧ ∀ w ∈ dfs succ d v vis, w ∉ vis → ∀ u ∈ succ w, u ∈ dfs succ d v vis := by
  intro d
  induction d with
  | zero => intro v vis hd; omega
  | succ d ih =>
    intro v vis hd
    unfold dfs
    by_cases hvis : v ∈ vis
    · simp only [if_pos hvis]
      exact ⟨hvis, fun w hw hn => absurd hw hn⟩
    · simp only [if_neg hvis]
      -- over the loop: its successors get in, and what gets in is closed
      have hloop : ∀ (us vis : List ν), (∀ u ∈ us, h u < d) →
          let vis' := us.foldl (fun vis u => dfs succ d u vis) vis
          (∀ w ∈ vis, w ∈ vis') ∧ (∀ u ∈ us, u ∈ vis') ∧ ∀ w ∈ vis', w ∉ vis → ∀ u ∈ succ w, u ∈ vis' := by
        intro us
        induction us with
        | nil => intro vis _; exact ⟨fun _ hw => hw, by simp, fun w hw hn => absurd hw hn⟩
        | cons x us ihl =>
          intro vis hlt
          obtain ⟨hx, hcl⟩ := ih x vis (hlt x List.mem_cons_self)
          obtain ⟨h1, h2, h3⟩ := ihl (dfs succ d x vis) fun u hu => hlt u (List.mem_cons_of_mem _ hu)
          obtain ⟨l, hl⟩ : ∃ l, dfs succ d x vis = vis ++ l := dfs_extends d x vis
          refine ⟨fun w hw => h1 w (hl ▸ List.mem_append_left _ hw), ?_, ?_⟩
          · intro u hu
            rcases List.mem_cons.mp hu with rfl | hu
            · exact h1 _ hx
            · exact h2 u hu
          · intro w hw hn u hu
            by_cases hin : w ∈ dfs succ d x vis
            · exact h1 u (hcl w hin hn u hu)
            · exact h3 w hw hin u hu
      obtain ⟨h1, h2, h3⟩ := hloop (succ v) (vis ++ [v]) fun u hu => by have := hh v u hu; omega
      refine ⟨h1 v (by simp), ?_⟩
      intro w hw hn u hu
      by_cases hwv : w = v
      · subst hwv
        exact h2 u hu
      · exact h3 w hw (by simp [hn, hwv]) u hu

omit [DecidableEq ν] in
theorem Within.mem_of_closed {D : List ν} (hcl : ∀ w ∈ D, ∀ u ∈ succ w, u ∈ D) {k : Nat} {v u : ν}
    (h : Within succ k v u) : v ∈ D → u ∈ D := by
  induction h with
  | here => exact id
  | step hw _ ih => intro hv; exact ih (hcl _ hv _ hw)

/-- Then the search finds everything there is to find. -/
theorem dfs_complete (hh : Height succ h) {d k : Nat} {v u : ν} (hd : h v < d) (hu : Within succ k v u) :
    u ∈ dfs succ d v [] := by
  obtain ⟨hv, hcl⟩ := dfs_closed hh d v [] hd
  exact hu.mem_of_closed (fun w hw => hcl w hw (by simp)) hv

/-! ## A search without marks -/

/-- The nodes of a depth-first search that forgets where it has been. -/
def preorder (succ : ν → List ν) : Nat → ν → List ν
  | 0, _ => []
  | d + 1, v => v :: (succ v).flatMap (preorder succ d)

omit [DecidableEq ν] in
theorem preorder_within : ∀ (d : Nat) (v : ν), ∀ u ∈ preorder succ d v, ∃ k, Within succ k v u := by
  intro d
  induction d with
  | zero => intro v u hu; cases hu
  | succ d ih =>
    intro v u hu
    rcases List.mem_cons.mp hu with rfl | hu
    · exact ⟨0, .here⟩
    · obtain ⟨w, hw, hu⟩ := List.mem_flatMap.mp hu
      obtain ⟨k, hk⟩ := ih w u hu
      exact ⟨k + 1, .step hw hk⟩

omit [DecidableEq ν] in
/-- More levels than the height are as good as any. -/
theorem preorder_levels (hh : Height succ h) : ∀ (d d' : Nat) (v : ν), h v < d → h v < d' →
    preorder succ d v = preorder succ d' v := by
  intro d
  induction d with
  | zero => intro d' v hd; omega
  | succ d ih =>
    intro d' v hd hd'
    obtain ⟨d', rfl⟩ : ∃ m, d' = m + 1 := ⟨d' - 1, by omega⟩
    unfold preorder
    congr 1
    refine List.flatMap_congr fun u hu => ?_
    have := hh v u hu
    exact ih d' u (by omega) (by omega)

section First

variable {β : Type} {f : ν → Option β} {h : ν → Nat} (hh : Height succ h)

/-- Nothing is to be found from the marked nodes below height `m`. -/
def Barren (succ : ν → List ν) (f : ν → Option β) (h : ν → Nat) (m : Nat) (vis : List ν) : Prop :=
  ∀ w ∈ vis, h w < m → ∀ k u, Within succ k w u → f u = Option.none

include hh in
/-- A search that found nothing leaves only barren nodes behind. -/
theorem barren_dfs {d m : Nat} {v : ν} {vis : List ν} (hd : h v < d) (hb : Barren succ f h m vis)
    (hnone : ∀ w ∈ dfs succ d v vis, w ∉ vis → f w = Option.none) : Barren succ f h m (dfs succ d v vis) := by
  have hcl := (dfs_closed hh d v vis hd).2
  intro w hw hm k u hu
  induction hu with
  | @here _ w =>
    by_cases hold : w ∈ vis
    · exact hb w hold hm 0 w .here
    · exact hnone w hw hold
  | @step k w x u hx hxu ih =>
    by_cases hold : w ∈ vis
    · exact hb w hold hm (k + 1) u (.step hx hxu)
    · have := hh w x hx
      exact ih (hcl w hw hold x hx) (by omega)

include hh in
theorem preorder_first_from : ∀ (d : Nat) (v : ν) (vis : List ν), h v < d → Barren succ f h (h v + 1) vis →
    (preorder succ d v).findSome? f = (new vis (dfs succ d v vis)).findSome? f := by
  intro d
  induction d with
  | zero => intro v vis hd; omega
  | succ d ih =>
    intro v vis hd hb
    have hext : ∀ vis u, ∃ l, dfs succ d u vis = vis ++ l := fun vis u => dfs_extends d u vis
    by_cases hvis : v ∈ vis
    · have hnone : (preorder succ (d + 1) v).findSome? f = Option.none := by
        refine List.findSome?_eq_none_iff.mpr fun u hu => ?_
        obtain ⟨k, hk⟩ := preorder_within (d + 1) v u hu
        exact hb v hvis (by omega) k u hk
      rw [hnone, dfs, if_pos hvis]
      simp [new]
    · -- the loop over the successors, which all lie below `v`
      have hloop : ∀ (us vis : List ν), (∀ u ∈ us, h u < h v) → Barren succ f h (h v) vis →
          (us.flatMap (preorder succ d)).findSome? f =
            (new vis (us.foldl (fun vis u => dfs succ d u vis) vis)).findSome? f := by
        intro us
        induction us with
        | nil => intro vis _ _; simp [new]
        | cons x us ihl =>
          intro vis hlt hbv
          have hx := hlt x List.mem_cons_self
          obtain ⟨l1, h1⟩ := hext vis x
          obtain ⟨l2, h2⟩ := foldl_extends hext us (dfs succ d x vis)
          have hfirst := ih x vis (by omega) fun w hw hm => hbv w hw (by omega)
          have hall : new vis ((x :: us).foldl (fun vis u => dfs succ d u vis) vis) = l1 ++ l2 := by
            rw [List.foldl_cons, h2, h1, List.append_assoc, new_append]
          rw [h1, new_append] at hfirst
          rw [hall, List.flatMap_cons, List.findSome?_append, List.findSome?_append, hfirst]
          rcases hl1 : l1.findSome? f with _ | a
          · have hbx : Barren succ f h (h v) (dfs succ d x vis) := by
              refine barren_dfs hh (by omega) hbv fun w hw hold => ?_
              rw [h1] at hw
              exact List.findSome?_eq_none_iff.mp hl1 w ((List.mem_append.mp hw).resolve_left hold)
            have hrest := ihl (dfs succ d x vis) (fun u hu => hlt u (List.mem_cons_of_mem _ hu)) hbx
            rw [h2, new_append] at hrest
            rw [Option.none_or, Option.none_or, hrest]
          · rfl
      obtain ⟨l, hl⟩ := foldl_extends hext (succ v) (vis ++ [v])
      have hloop' := hloop (succ v) (vis ++ [v]) (hh v) fun w hw hm => by
        rcases List.mem_append.mp hw with hw | hw
        · exact hb w hw (by omega)
        · rw [List.mem_singleton.mp hw] at hm
          omega
      rw [hl, new_append] at hloop'
      rw [dfs, if_neg hvis, hl, List.append_assoc, new_append, preorder]
      show (v :: _).findSome? f = (v :: l).findSome? f
      rw [List.findSome?_cons, List.findSome?_cons, hloop']

include hh in
/-- Where the limit does not cut, the marks do not matter to the first find. -/
theorem preorder_first {d : Nat} {v : ν} (hd : h v < d) :
    (preorder succ d v).findSome? f = (dfs succ d v []).findSome? f := by
  have := preorder_first_from hh (f := f) d v [] hd fun w hw => absurd hw (by simp)
  simpa [new] using this

end First

end Spec

/-! ## The same graph under other names -/

section Rename

variable {μ : Type} [DecidableEq μ] {succ : ν → List ν} {succ' : μ → List μ} {φ : ν → μ} {S : ν → Prop}

/-- `φ` names the nodes of `S`, which no edge leaves, apart. -/
structure Renames (succ : ν → List ν) (succ' : μ → List μ) (φ : ν → μ) (S : ν → Prop) : Prop where
  inj : ∀ v u, S v → S u → φ v = φ u → v = u
  closed : ∀ v, S v → ∀ u ∈ succ v, S u
  edges : ∀ v, S v → succ' (φ v) = (succ v).map φ

theorem Renames.dfs_map (hr : Renames succ succ' φ S) : ∀ (d : Nat) (v : ν) (vis : List ν), S v → (∀ u ∈ vis, S u) →
    dfs succ' d (φ v) (vis.map φ) = (dfs succ d v vis).map φ ∧ ∀ u ∈ dfs succ d v vis, S u := by
  intro d
  induction d with
  | zero => intro v vis _ hvis; exact ⟨rfl, hvis⟩
  | succ d ih =>
    intro v vis hv hvis
    have hmem : φ v ∈ vis.map φ ↔ v ∈ vis := by
      constructor
      · intro h
        obtain ⟨u, hu, he⟩ := List.mem_map.mp h
        rw [← hr.inj u v (hvis u hu) hv he]
        exact hu
      · exact List.mem_map_of_mem
    have hloop : ∀ (us vis : List ν), (∀ u ∈ us, S u) → (∀ u ∈ vis, S u) →
        (us.map φ).foldl (fun vis u => dfs succ' d u vis) (vis.map φ) =
          (us.foldl (fun vis u => dfs succ d u vis) vis).map φ ∧
        ∀ u ∈ us.foldl (fun vis u => dfs succ d u vis) vis, S u := by
      intro us
      induction us with
      | nil => intro vis _ hvis; exact ⟨rfl, hvis⟩
      | cons x us ihl =>
        intro vis hus hvis
        obtain ⟨h1, h2⟩ := ih x vis (hus x List.mem_cons_self) hvis
        rw [List.map_cons, List.foldl_cons, List.foldl_cons, h1]
        exact ihl _ (fun u hu => hus u (List.mem_cons_of_mem _ hu)) h2
    unfold dfs
    by_cases hin : v ∈ vis
    · rw [if_pos hin, if_pos (hmem.mpr hin)]
      exact ⟨rfl, hvis⟩
    · rw [if_neg hin, if_neg (fun h => hin (hmem.mp h)), hr.edges v hv]
      have := hloop (succ v) (vis ++ [v]) (hr.closed v hv) (by
        intro u hu
        rcases List.mem_append.mp hu with hu | hu
        · exact hvis u hu
        · rw [List.mem_singleton.mp hu]; exact hv)
      rw [List.map_append] at this
      exact this

end Rename

end Panthera.Lib.Walk
