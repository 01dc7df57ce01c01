/-
  Panthera.Lib.RefCount — objects that are shared by counting references.

  An object has a count and a content, and the content holds references to other objects
  (`kids`). Giving up a reference lowers the count; at 0 the object is destroyed, which gives
  up what it holds, and so on. A heap keeps two lists for what is said about it: the
  objects whose destruction was begun, and the uses of objects that are not there.

  `Balanced` says that every count is the number of references from outside and from
  contents. A reference from outside can always be given up (`Balanced.release`), however
  far the destruction goes: it ends, and leaves the rest of the heap as it was (`Frame`).
-/

import Mathlib.Algebra.BigOperators.Group.Finset.Basic
import Mathlib.Data.Multiset.Count
import Panthera.Lib.Run

namespace Panthera.Lib.RefCount

variable {κ : Type}

structure Cell (κ : Type) where
  count : Int32
  content : κ

structure Heap (κ : Type) where
  cells : Nat → Option (Cell κ)
  next : Nat
  destroyed : List (Nat × κ)
  stale : List Nat

namespace Heap

def empty : Heap κ := ⟨fun _ => none, 0, [], []⟩

def put (h : Heap κ) (r : Nat) (c : Option (Cell κ)) : Heap κ := { h with cells := fun o => if o = r then c else h.cells o }

/-- The use of an object that is not there. -/
def touch (h : Heap κ) (r : Nat) : Heap κ := { h with stale := r :: h.stale }

/-- The reference to the new object is `h.next`. -/
def alloc (h : Heap κ) (x : κ) : Heap κ := { h.put h.next (some ⟨1, x⟩) with next := h.next + 1 }

def retain (h : Heap κ) (r : Nat) : Heap κ :=
  match h.cells r with
  | none => h.touch r
  | some c => h.put r (some { c with count := c.count + 1 })

def setContent (h : Heap κ) (r : Nat) (x : κ) : Heap κ :=
  match h.cells r with
  | none => h.touch r
  | some c => h.put r (some { c with content := x })

def content? (h : Heap κ) (r : Nat) : Option κ := (h.cells r).map (·.content)

end Heap

variable (kids : κ → List Nat)

/-- Gives up a reference; `none` if destructions are nested deeper than `fuel`. Where they are deeper
    than there are objects, one is destroyed inside its own destruction, over and over. -/
def release : Nat → Nat → Heap κ → Option (Heap κ)
  | 0, _, _ => none
  | fuel + 1, r, h =>
    match h.cells r with
    | none => some (h.touch r)
    | some c =>
      let h := h.put r (some { c with count := c.count - 1 })
      if 0 < c.count - 1 then some h
      else
        let h := { h with destroyed := (r, c.content) :: h.destroyed }
        ((kids c.content).foldlM (fun h k => release fuel k h) h).map (·.put r none)

/-! ## What is left alone -/

variable {x : κ} {dying dying' : Finset Nat}

section Put

variable {h : Heap κ} {r o : Nat} {c : Option (Cell κ)}

@[simp] theorem put_cells : (h.put r c).cells o = if o = r then c else h.cells o := rfl

@[simp] theorem put_next : (h.put r c).next = h.next := rfl

@[simp] theorem put_destroyed : (h.put r c).destroyed = h.destroyed := rfl

@[simp] theorem touch_cells : (h.touch r).cells = h.cells := rfl

/-- What there is after an allocation. -/
theorem content?_alloc {y : κ} (hy : (h.alloc x).content? o = some y) : o = h.next ∧ y = x ∨ o ≠ h.next ∧ h.content? o = some y := by
  by_cases ho : o = h.next
  · exact .inl ⟨ho, by simpa [Heap.content?, Heap.alloc, ho, eq_comm] using hy⟩
  · exact .inr ⟨ho, by simpa [Heap.content?, Heap.alloc, ho] using hy⟩

/-- What there is after a content was set. -/
theorem content?_setContent {y : κ} (hy : (h.setContent r x).content? o = some y) :
    o = r ∧ y = x ∨ o ≠ r ∧ h.content? o = some y := by
  rw [Heap.setContent] at hy
  by_cases ho : o = r
  · split at hy
    · rename_i hc
      simp [Heap.content?, ho, hc] at hy
    · exact .inl ⟨ho, by simpa [Heap.content?, ho, eq_comm] using hy⟩
  · split at hy
    · exact .inr ⟨ho, hy⟩
    · exact .inr ⟨ho, by simpa [Heap.content?, ho] using hy⟩

end Put

/-- From `h` to `h'` objects only go, and what goes is listed with its content. -/
structure Frame (h h' : Heap κ) : Prop where
  next : h'.next = h.next
  content : ∀ o x, h'.content? o = some x → h.content? o = some x
  destroyed : ∃ l, h'.destroyed = l ++ h.destroyed ∧ ∀ p ∈ l, h.content? p.1 = some p.2

namespace Frame

variable {h h' h'' : Heap κ}

theorem refl (h : Heap κ) : Frame h h := ⟨rfl, fun _ _ hx => hx, [], rfl, by simp⟩

theorem trans (h₁ : Frame h h') (h₂ : Frame h' h'') : Frame h h'' := by
  obtain ⟨l₁, hl₁, hgone₁⟩ := h₁.destroyed
  obtain ⟨l₂, hl₂, hgone₂⟩ := h₂.destroyed
  refine ⟨h₂.next.trans h₁.next, fun o x hx => h₁.content o x (h₂.content o x hx), l₂ ++ l₁, by rw [hl₂, hl₁, List.append_assoc], ?_⟩
  intro p hp
  rcases List.mem_append.mp hp with hp | hp
  · exact h₁.content _ _ (hgone₂ p hp)
  · exact hgone₁ p hp

theorem touch (h : Heap κ) (r : Nat) : Frame h (h.touch r) := ⟨rfl, fun _ _ hx => hx, [], rfl, by simp⟩

theorem foldlM {f : Heap κ → Nat → Option (Heap κ)} (hf : ∀ h k, Run.Sound (Frame h) (f h k)) (ks : List Nat) (hh : Frame h h') :
    Run.Sound (Frame h) (ks.foldlM f h') := Run.Sound.foldlM (fun g k hg g' hg' => hg.trans (hf g k g' hg')) ks hh

theorem mem_destroyed (hf : Frame h h') {r : Nat} (hr : r ∈ h.destroyed.map (·.1)) : r ∈ h'.destroyed.map (·.1) := by
  obtain ⟨l, hl, -⟩ := hf.destroyed
  rw [hl, List.map_append]
  exact List.mem_append_right _ hr

end Frame

variable {h : Heap κ} {c : Cell κ}

theorem frame_count {r : Nat} (hc : h.cells r = some c) (n : Int32) : Frame h (h.put r (some { c with count := n })) := by
  refine ⟨rfl, fun o x hx => ?_, [], rfl, by simp⟩
  by_cases ho : o = r
  · subst ho
    simpa [Heap.content?, hc] using hx
  · simpa [Heap.content?, ho] using hx

@[simp] theorem content?_retain {h : Heap κ} {r : Nat} (o : Nat) : (h.retain r).content? o = h.content? o := by
  rw [Heap.retain]
  split
  · rfl
  · rename_i c hc
    by_cases ho : o = r <;> simp [Heap.content?, ho, hc]

theorem release_frame : ∀ (fuel r : Nat) (h : Heap κ), Run.Sound (Frame h) (release kids fuel r h) := by
  intro fuel
  induction fuel with
  | zero => exact fun r h => .none
  | succ fuel ih =>
    intro r h
    rw [release]
    split
    · exact .some (.touch h r)
    · rename_i c hc
      have hcount := frame_count hc (c.count - 1)
      simp only
      split
      · exact .some hcount
      · -- the object is listed, its references are given up, and it goes
        have hlisted : Frame h { h.put r (some { c with count := c.count - 1 }) with destroyed := (r, c.content) :: h.destroyed } :=
          ⟨rfl, hcount.content, [(r, c.content)], rfl, by simp [Heap.content?, hc]⟩
        intro h' hh'
        obtain ⟨g, hg, rfl⟩ := Option.map_eq_some_iff.mp hh'
        have hkids := Frame.foldlM (fun h k => ih k h) (kids c.content) hlisted g hg
        refine ⟨hkids.next, fun o x hx => hkids.content o x ?_, hkids.destroyed⟩
        by_cases ho : o = r
        · simp [Heap.content?, ho] at hx
        · simpa [Heap.content?, ho] using hx

/-! ## Counting -/

/-- How often `o` holds `r`; an object that is being destroyed holds nothing. -/
def slotsOf (h : Heap κ) (dying : Finset Nat) (o r : Nat) : Nat :=
  if o ∈ dying then 0 else (h.content? o).elim 0 fun x => (kids x).count r

/-- How often contents hold `r`. -/
def held (h : Heap κ) (dying : Finset Nat) (r : Nat) : Nat := ∑ o ∈ Finset.range h.next, slotsOf kids h dying o r

/-- The references to `r`, from outside and from contents. -/
def total (h : Heap κ) (refs : Multiset Nat) (dying : Finset Nat) (r : Nat) : Nat := refs.count r + held kids h dying r

/-- Every count is the number of references; an object is there as long as there are any, and is
    destroyed once. Objects of `dying` have been begun. -/
structure Balanced (h : Heap κ) (refs : Multiset Nat) (dying : Finset Nat) : Prop where
  bound : ∀ r, (h.cells r).isSome → r < h.next
  count : ∀ r c, h.cells r = some c → c.count.toInt = total kids h refs dying r
  alive : ∀ r, r ∉ dying → ((h.cells r).isSome ↔ 0 < total kids h refs dying r)
  begun : ∀ r ∈ dying, (h.cells r).isSome ∧ total kids h refs dying r = 0
  destroyed_once : (h.destroyed.map (·.1)).Nodup
  destroyed_iff : ∀ r, r ∈ h.destroyed.map (·.1) ↔ r < h.next ∧ (h.cells r = none ∨ r ∈ dying)
  no_stale : h.stale = []

theorem Balanced.empty : Balanced kids .empty 0 ∅ := by
  constructor <;> simp [Heap.empty, total, held]

variable {h' : Heap κ}

theorem slotsOf_congr {o : Nat} (hd : o ∈ dying' ↔ o ∈ dying)
    (hc : h'.content? o = h.content? o) (r : Nat) : slotsOf kids h' dying' o r = slotsOf kids h dying o r := by
  simp only [slotsOf, hd, hc]

theorem held_congr (hn : h'.next = h.next)
    (hs : ∀ o r, slotsOf kids h' dying' o r = slotsOf kids h dying o r) (r : Nat) : held kids h' dying' r = held kids h dying r := by
  rw [held, hn]
  exact Finset.sum_congr rfl fun o _ => hs o r

/-- Only `o` has changed. -/
theorem held_exchange {o : Nat} (ho : o < h.next) (hn : h'.next = h.next)
    (hs : ∀ q ≠ o, ∀ r, slotsOf kids h' dying' q r = slotsOf kids h dying q r) (r : Nat) :
    held kids h' dying' r + slotsOf kids h dying o r = held kids h dying r + slotsOf kids h' dying' o r := by
  have hmem : o ∈ Finset.range h.next := Finset.mem_range.mpr ho
  have hrest : ∑ q ∈ (Finset.range h.next).erase o, slotsOf kids h' dying' q r =
      ∑ q ∈ (Finset.range h.next).erase o, slotsOf kids h dying q r :=
    Finset.sum_congr rfl fun q hq => hs q (Finset.ne_of_mem_erase hq) r
  rw [held, hn, held, ← Finset.add_sum_erase _ _ hmem, ← Finset.add_sum_erase _ (fun q => slotsOf kids h dying q r) hmem, hrest]
  omega

/-! ## Giving up a reference -/

/-- The objects that are there and not being destroyed. -/
def liveCount (h : Heap κ) (dying : Finset Nat) : Nat :=
  ((Finset.range h.next).filter fun o => (h.cells o).isSome ∧ o ∉ dying).card

theorem liveCount_le (hf : Frame h h') : liveCount h' dying ≤ liveCount h dying := by
  refine Finset.card_le_card fun o ho => ?_
  simp only [Finset.mem_filter, Finset.mem_range, hf.next] at ho ⊢
  obtain ⟨hlt, hsome, hnot⟩ := ho
  obtain ⟨c, hc⟩ := Option.isSome_iff_exists.mp hsome
  have hcontent := hf.content o c.content (by simp [Heap.content?, hc])
  obtain ⟨c', hc', -⟩ := Option.map_eq_some_iff.mp hcontent
  exact ⟨hlt, by simp [hc'], hnot⟩

section

variable {kids} {h : Heap κ} {refs : Multiset Nat} {dying : Finset Nat} {r : Nat}

/-- A referenced object is there, and is not being destroyed. -/
theorem Balanced.exists_cell (hb : Balanced kids h refs dying) (hr : 0 < total kids h refs dying r) :
    r ∉ dying ∧ ∃ c, h.cells r = some c := by
  have hnot : r ∉ dying := fun hd => by
    have := (hb.begun r hd).2
    omega
  exact ⟨hnot, Option.isSome_iff_exists.mp ((hb.alive r hnot).mpr hr)⟩

theorem Balanced.exists_of_mem (hb : Balanced kids h refs dying) (hr : r ∈ refs) : ∃ c, h.cells r = some c :=
  (hb.exists_cell (Nat.lt_of_lt_of_le (Multiset.count_pos.mpr hr) (Nat.le_add_right _ _))).2

/-- Nothing refers to an object that is not there yet. -/
theorem Balanced.fresh (hb : Balanced kids h refs dying) :
    h.cells h.next = none ∧ h.next ∉ dying ∧ total kids h refs dying h.next = 0 := by
  have hnone : h.cells h.next = none := by
    cases hc : h.cells h.next with
    | none => rfl
    | some c => exact absurd (hb.bound h.next (by simp [hc])) (Nat.lt_irrefl _)
  have hnot : h.next ∉ dying := fun hd => by
    have := (hb.begun _ hd).1
    simp [hnone] at this
  refine ⟨hnone, hnot, Nat.eq_zero_of_not_pos fun hpos => ?_⟩
  have := (hb.alive h.next hnot).mpr hpos
  simp [hnone] at this

/-- Counts do not enter into what is held. -/
theorem slotsOf_put_count (hc : h.cells r = some c) (n : Int32) (o x : Nat) :
    slotsOf kids (h.put r (some { c with count := n })) dying o x = slotsOf kids h dying o x := by
  refine slotsOf_congr kids Iff.rfl ?_ x
  by_cases ho : o = r <;> simp [Heap.content?, ho, hc]

theorem held_put_count (hc : h.cells r = some c) (n : Int32) (x : Nat) :
    held kids (h.put r (some { c with count := n })) dying x = held kids h dying x := by
  have hnext : (h.put r (some { c with count := n })).next = h.next := rfl
  exact held_congr kids hnext (fun o x => slotsOf_put_count hc n o x) x

theorem toInt_sub_one {n : Int32} (h : -2 ^ 31 < n.toInt) : (n - 1).toInt = n.toInt - 1 := by
  have hlt := n.toInt_lt
  have hone : (1 : Int32).toInt = 1 := rfl
  rw [Int32.toInt_sub, hone, Int.bmod_def]
  omega

theorem toInt_add_one {n : Int32} (h : 0 ≤ n.toInt) (hlt : n.toInt + 1 < 2 ^ 31) : (n + 1).toInt = n.toInt + 1 := by
  have hone : (1 : Int32).toInt = 1 := rfl
  rw [Int32.toInt_add, hone, Int.bmod_def]
  omega

theorem total_cons (x : Nat) : total kids h (r ::ₘ refs) dying x = total kids h refs dying x + if x = r then 1 else 0 := by
  rw [total, total, Multiset.count_cons]
  omega

/-- The count of an object that has a reference to give up. -/
theorem Balanced.count_sub_one (hb : Balanced kids h (r ::ₘ refs) dying) (hc : h.cells r = some c) :
    (c.count - 1).toInt = total kids h refs dying r := by
  have hcount := hb.count r c hc
  rw [total_cons, if_pos rfl] at hcount
  rw [toInt_sub_one (by omega), hcount]
  omega

/-- One object changes, and its count with the references to it. -/
theorem Balanced.put {refs' : Multiset Nat} (hb : Balanced kids h refs dying) {c' : Cell κ} (hc : h.cells r = some c) (hnot : r ∉ dying)
    (hothers : ∀ x ≠ r, total kids (h.put r (some c')) refs' dying x = total kids h refs dying x)
    (hcount : c'.count.toInt = total kids (h.put r (some c')) refs' dying r)
    (hpos : 0 < total kids (h.put r (some c')) refs' dying r) : Balanced kids (h.put r (some c')) refs' dying := by
  have hsome : ∀ x, ((h.put r (some c')).cells x).isSome = (h.cells x).isSome := by
    intro x
    by_cases hx : x = r <;> simp [hx, hc]
  have hnone : ∀ x, (h.put r (some c')).cells x = none ↔ h.cells x = none := by
    intro x
    by_cases hx : x = r <;> simp [hx, hc]
  constructor
  · intro x hx
    exact hb.bound x (hsome x ▸ hx)
  · intro x c1 hc1
    by_cases hx : x = r
    · subst hx
      rw [put_cells, if_pos rfl, Option.some.injEq] at hc1
      rw [← hc1, hcount]
    · rw [put_cells, if_neg hx] at hc1
      rw [hothers x hx]
      exact hb.count x c1 hc1
  · intro x hx
    by_cases hxr : x = r
    · subst hxr
      simp [hpos]
    · rw [hothers x hxr, hsome]
      exact hb.alive x hx
  · intro x hx
    have hxr : x ≠ r := fun he => hnot (he ▸ hx)
    rw [hothers x hxr, hsome]
    exact hb.begun x hx
  · exact hb.destroyed_once
  · intro x
    rw [put_destroyed, put_next, hnone]
    exact hb.destroyed_iff x
  · exact hb.no_stale

/-- The count goes down and references are left. -/
theorem Balanced.lower (hb : Balanced kids h (r ::ₘ refs) dying) (hc : h.cells r = some c)
    (hleft : 0 < total kids h refs dying r) : Balanced kids (h.put r (some { c with count := c.count - 1 })) refs dying := by
  have hnot := (hb.exists_cell (r := r) (by rw [total_cons]; omega)).1
  have htotal : ∀ x, total kids (h.put r (some { c with count := c.count - 1 })) refs dying x = total kids h refs dying x := by
    intro x
    rw [total, held_put_count hc, total]
  refine hb.put hc hnot (fun x hx => ?_) ?_ ?_
  · rw [htotal, total_cons, if_neg hx, Nat.add_zero]
  · rw [htotal]
    exact hb.count_sub_one hc
  · rwa [htotal]

variable {g : Heap κ} {d : Nat}

/-- An object whose destruction is begun holds nothing any more. -/
theorem held_begin (hnext : g.next = h.next) (hcontent : ∀ o, g.content? o = h.content? o)
    (hc : h.cells r = some c) (hr : r < h.next) (hnot : r ∉ dying) (x : Nat) :
    held kids g (insert r dying) x + (kids c.content).count x = held kids h dying x := by
  have hold : slotsOf kids h dying r x = (kids c.content).count x := by simp [slotsOf, hnot, Heap.content?, hc]
  have hnew : slotsOf kids g (insert r dying) r x = 0 := by simp [slotsOf]
  have hrest : ∀ q ≠ r, ∀ y, slotsOf kids g (insert r dying) q y = slotsOf kids h dying q y :=
    fun q hq y => slotsOf_congr kids (by simp [hq]) (hcontent q) y
  have := held_exchange kids hr hnext hrest x
  omega

/-- The count goes down to 0: what the object holds is there to be given up. -/
theorem Balanced.start (hb : Balanced kids h (r ::ₘ refs) dying) (hc : h.cells r = some c)
    (hnone : total kids h refs dying r = 0) :
    Balanced kids { h.put r (some { c with count := c.count - 1 }) with destroyed := (r, c.content) :: h.destroyed }
      (refs + kids c.content) (insert r dying) := by
  have hnot := (hb.exists_cell (r := r) (by rw [total_cons, if_pos rfl]; omega)).1
  have hr := hb.bound r (by simp [hc])
  let g : Heap κ := { h.put r (some { c with count := c.count - 1 }) with destroyed := (r, c.content) :: h.destroyed }
  have hnext : g.next = h.next := rfl
  have hcontent : ∀ o, g.content? o = h.content? o := by
    intro o
    by_cases ho : o = r <;> simp [g, Heap.content?, ho, hc]
  have htotal : ∀ x, total kids g (refs + kids c.content) (insert r dying) x = total kids h refs dying x := by
    intro x
    have hbegin : held kids g (insert r dying) x + (kids c.content).count x = held kids h dying x :=
      held_begin hnext hcontent hc hr hnot x
    rw [total, total, Multiset.count_add, Multiset.coe_count]
    omega
  have hsome : ∀ x, (g.cells x).isSome = (h.cells x).isSome := by
    intro x
    by_cases hx : x = r <;> simp [g, hx, hc]
  constructor
  · intro x hx
    exact hb.bound x (hsome x ▸ hx)
  · intro x c' hc'
    rw [htotal]
    by_cases hx : x = r
    · subst hx
      simp only [put_cells, if_pos, Option.some.injEq] at hc'
      rw [← hc']
      exact hb.count_sub_one hc
    · simp only [put_cells, if_neg hx] at hc'
      have := hb.count x c' hc'
      rwa [total_cons, if_neg hx, Nat.add_zero] at this
  · intro x hx
    rw [Finset.mem_insert, not_or] at hx
    rw [htotal, hsome, hb.alive x hx.2, total_cons, if_neg hx.1, Nat.add_zero]
  · intro x hx
    rw [htotal, hsome]
    rcases Finset.mem_insert.mp hx with rfl | hx'
    · exact ⟨by simp [hc], hnone⟩
    · have hxr : x ≠ r := fun he => hnot (he ▸ hx')
      have hbegun := hb.begun x hx'
      rwa [total_cons, if_neg hxr, Nat.add_zero] at hbegun
  · refine List.nodup_cons.mpr ⟨fun hmem => ?_, hb.destroyed_once⟩
    have := ((hb.destroyed_iff r).mp hmem).2
    simp [hc, hnot] at this
  · intro x
    have hx := hb.destroyed_iff x
    by_cases hxr : x = r
    · subst hxr
      simp [hr]
    · simp only [List.map_cons, List.mem_cons, hxr, false_or, put_next, put_cells, if_false, Finset.mem_insert]
      exact hx
  · exact hb.no_stale

/-- The object goes. -/
theorem Balanced.finish (hb : Balanced kids h refs (insert r dying)) (hr : r ∉ dying) : Balanced kids (h.put r none) refs dying := by
  obtain ⟨hsome, hzero⟩ := hb.begun r (Finset.mem_insert_self r dying)
  have hheld : ∀ x, held kids (h.put r none) dying x = held kids h (insert r dying) x := by
    intro x
    refine held_congr kids put_next (fun o y => ?_) x
    by_cases ho : o = r
    · simp [slotsOf, ho, hr, Heap.content?]
    · exact slotsOf_congr kids (by simp [ho]) (by simp [Heap.content?, ho]) y
  have htotal : ∀ x, total kids (h.put r none) refs dying x = total kids h refs (insert r dying) x := by
    intro x
    rw [total, hheld, total]
  constructor
  · intro x hx
    by_cases hxr : x = r
    · simp [hxr] at hx
    · exact hb.bound x (by simpa [hxr] using hx)
  · intro x c hc
    by_cases hxr : x = r
    · simp [hxr] at hc
    · rw [htotal]
      exact hb.count x c (by simpa [hxr] using hc)
  · intro x hx
    rw [htotal]
    by_cases hxr : x = r
    · simp [hxr, hzero]
    · rw [← hb.alive x (by simp [hxr, hx]), put_cells, if_neg hxr]
  · intro x hx
    have hxr : x ≠ r := fun he => hr (he ▸ hx)
    rw [htotal, put_cells, if_neg hxr]
    exact hb.begun x (Finset.mem_insert_of_mem hx)
  · exact hb.destroyed_once
  · intro x
    rw [put_destroyed, hb.destroyed_iff x, put_next, put_cells, Finset.mem_insert]
    by_cases hxr : x = r <;> simp [hxr]
  · exact hb.no_stale

/-- There is one object less to destroy. -/
theorem liveCount_start (hnext : g.next = h.next) (hsome : ∀ o, (g.cells o).isSome = (h.cells o).isSome)
    (hr : r < h.next) (hlive : (h.cells r).isSome) (hnot : r ∉ dying) : liveCount g (insert r dying) < liveCount h dying := by
  refine Finset.card_lt_card (Finset.ssubset_iff.mpr ⟨r, by simp, fun o ho => ?_⟩)
  simp only [Finset.mem_insert, Finset.mem_filter, Finset.mem_range, hnext, hsome] at ho ⊢
  rcases ho with rfl | ⟨hlt, hs, hn⟩
  · exact ⟨hr, hlive, hnot⟩
  · exact ⟨hlt, hs, fun hd => hn (Or.inr hd)⟩

/-- A reference from outside is given up. -/
theorem Balanced.release : ∀ {fuel r : Nat} {h : Heap κ} {refs : Multiset Nat} {dying : Finset Nat},
    Balanced kids h (r ::ₘ refs) dying → liveCount h dying < fuel → ∃ h', release kids fuel r h = some h' ∧ Balanced kids h' refs dying := by
  intro fuel
  induction fuel with
  | zero => intro r h refs dying hb hfuel; omega
  | succ fuel ih =>
    intro r h refs dying hb hfuel
    obtain ⟨hnot, c, hc⟩ := hb.exists_cell (r := r) (by rw [total_cons, if_pos rfl]; omega)
    have hcount := hb.count_sub_one hc
    have hpos_iff : 0 < c.count - 1 ↔ 0 < total kids h refs dying r := by
      rw [Int32.lt_iff_toInt_lt, hcount]
      simp
    rw [RefCount.release, hc]
    simp only
    split
    · rename_i hpos
      exact ⟨_, rfl, hb.lower hc (hpos_iff.mp hpos)⟩
    · rename_i hpos
      have hstart := hb.start hc (Nat.eq_zero_of_not_pos fun h0 => hpos (hpos_iff.mpr h0))
      have hlive : liveCount { h.put r (some { c with count := c.count - 1 }) with destroyed := (r, c.content) :: h.destroyed }
          (insert r dying) < fuel := by
        have hless : liveCount (h.put r (some { c with count := c.count - 1 })) (insert r dying) < liveCount h dying :=
          liveCount_start (h := h) rfl (fun o => by by_cases ho : o = r <;> simp [ho, hc]) (hb.bound r (by simp [hc])) (by simp [hc]) hnot
        exact Nat.lt_of_lt_of_le hless (Nat.lt_succ_iff.mp hfuel)
      -- one reference of the content after the other
      have hkids : ∀ (ks : List Nat) (g : Heap κ), Balanced kids g (refs + ks) (insert r dying) → liveCount g (insert r dying) < fuel →
          ∃ g', ks.foldlM (fun g k => RefCount.release kids fuel k g) g = some g' ∧ Balanced kids g' refs (insert r dying) := by
        intro ks
        induction ks with
        | nil =>
          intro g hg _
          exact ⟨g, rfl, by simpa using hg⟩
        | cons k ks ihks =>
          intro g hg hgfuel
          rw [← Multiset.cons_coe, Multiset.add_cons] at hg
          obtain ⟨g₁, hg₁, hb₁⟩ := ih hg hgfuel
          obtain ⟨g', hg', hb'⟩ := ihks g₁ hb₁ (Nat.lt_of_le_of_lt (liveCount_le (release_frame kids fuel k g g₁ hg₁)) hgfuel)
          exact ⟨g', by rw [List.foldlM_cons, hg₁]; exact hg', hb'⟩
      obtain ⟨g, hg, hb'⟩ := hkids _ _ hstart hlive
      exact ⟨g.put r none, Option.map_eq_some_iff.mpr ⟨g, hg, rfl⟩, hb'.finish hnot⟩

/-- An object that holds itself, and nothing else, is destroyed inside its destruction until the
    count has gone round. -/
theorem release_self {x : κ} (hself : kids x = [r]) : ∀ (fuel : Nat) {h : Heap κ} {n : Int32}, h.cells r = some ⟨n, x⟩ → n.toInt ≤ 1 →
    fuel < n.toInt + 2 ^ 31 → RefCount.release kids fuel r h = none := by
  intro fuel
  induction fuel with
  | zero => exact fun _ _ _ => rfl
  | succ fuel ih =>
    intro h n hc hle hfuel
    have hcount : (n - 1).toInt = n.toInt - 1 := toInt_sub_one (by omega)
    have hnot : ¬ 0 < n - 1 := by
      rw [Int32.lt_iff_toInt_lt, hcount]
      change ¬ (0 : Int) < n.toInt - 1
      omega
    rw [RefCount.release, hc]
    simp only [if_neg hnot, hself, List.foldlM_cons, List.foldlM_nil]
    rw [ih (n := n - 1) (by simp) (by omega) (by omega)]
    rfl

/-! ## Taking references -/

/-- A reference to an object that is there. -/
theorem Balanced.retain (hb : Balanced kids h refs dying) (hc : h.cells r = some c) (hnot : r ∉ dying)
    (hroom : total kids h refs dying r + 1 < 2 ^ 31) : Balanced kids (h.retain r) (r ::ₘ refs) dying := by
  have htotal : ∀ x, total kids (h.put r (some { c with count := c.count + 1 })) (r ::ₘ refs) dying x =
      total kids h refs dying x + if x = r then 1 else 0 := by
    intro x
    rw [total_cons, total, total, held_put_count hc]
  have hcount : (c.count + 1).toInt = total kids h refs dying r + 1 := by
    have := hb.count r c hc
    rw [toInt_add_one (by omega) (by omega), this]
  rw [Heap.retain, hc]
  refine hb.put hc hnot (fun x hx => ?_) ?_ ?_
  · rw [htotal, if_neg hx, Nat.add_zero]
  · rw [htotal, if_pos rfl]
    simpa using hcount
  · rw [htotal, if_pos rfl]
    omega

/-- A new object takes over the references that it holds. -/
theorem Balanced.alloc (hb : Balanced kids h (refs + kids x) dying) : Balanced kids (h.alloc x) (h.next ::ₘ refs) dying := by
  obtain ⟨hfresh, hnot, hzero⟩ := hb.fresh
  have hcells : ∀ o, (h.alloc x).cells o = if o = h.next then some ⟨1, x⟩ else h.cells o := fun _ => rfl
  have hheld : ∀ y, held kids (h.alloc x) dying y = held kids h dying y + (kids x).count y := by
    intro y
    have hrest : ∑ o ∈ Finset.range h.next, slotsOf kids (h.alloc x) dying o y = held kids h dying y := by
      refine Finset.sum_congr rfl fun o ho => slotsOf_congr kids Iff.rfl ?_ y
      rw [Heap.content?, hcells, if_neg (Nat.ne_of_lt (Finset.mem_range.mp ho)), Heap.content?]
    have hnew : slotsOf kids (h.alloc x) dying h.next y = (kids x).count y := by
      simp [slotsOf, hnot, Heap.content?, hcells]
    rw [held, show (h.alloc x).next = h.next + 1 from rfl, Finset.sum_range_succ, hrest, hnew]
  have htotal : ∀ y, total kids (h.alloc x) (h.next ::ₘ refs) dying y =
      total kids h (refs + kids x) dying y + if y = h.next then 1 else 0 := by
    intro y
    rw [total_cons, total, hheld, total, Multiset.count_add, Multiset.coe_count]
    omega
  constructor
  · intro y hy
    by_cases hyn : y = h.next
    · exact hyn ▸ Nat.lt_succ_self _
    · exact Nat.lt_succ_of_lt (hb.bound y (by simpa [hcells, hyn] using hy))
  · intro y c hc
    rw [htotal]
    by_cases hyn : y = h.next
    · subst hyn
      rw [hcells, if_pos rfl, Option.some.injEq] at hc
      rw [← hc, hzero, if_pos rfl]
      rfl
    · rw [hcells, if_neg hyn] at hc
      rw [if_neg hyn, Nat.add_zero]
      exact hb.count y c hc
  · intro y hy
    rw [htotal, hcells]
    by_cases hyn : y = h.next
    · simp [hyn]
    · rw [if_neg hyn, if_neg hyn, Nat.add_zero, hb.alive y hy]
  · intro y hy
    have hyn : y ≠ h.next := fun he => hnot (he ▸ hy)
    rw [htotal, hcells, if_neg hyn, if_neg hyn, Nat.add_zero]
    exact hb.begun y hy
  · exact hb.destroyed_once
  · intro y
    rw [show (h.alloc x).destroyed = h.destroyed from rfl, hb.destroyed_iff y, show (h.alloc x).next = h.next + 1 from rfl, hcells]
    by_cases hyn : y = h.next
    · simp [hyn, hnot]
    · rw [if_neg hyn, show y < h.next + 1 ↔ y < h.next by omega]
  · exact hb.no_stale

/-- A new content takes over the references that it holds, and gives back those of the old one. -/
theorem Balanced.setContent {refs' : Multiset Nat} (hb : Balanced kids h refs dying) (hc : h.cells r = some c)
    (hnot : r ∉ dying) (hrefs : refs' + kids x = refs + kids c.content) : Balanced kids (h.setContent r x) refs' dying := by
  have htotal : ∀ y, total kids (h.put r (some { c with content := x })) refs' dying y = total kids h refs dying y := by
    intro y
    have hcount : refs'.count y + (kids x).count y = refs.count y + (kids c.content).count y := by
      simpa [Multiset.count_add] using congrArg (Multiset.count y) hrefs
    have hrest : ∀ q ≠ r, ∀ y, slotsOf kids (h.put r (some { c with content := x })) dying q y = slotsOf kids h dying q y :=
      fun q hq y => slotsOf_congr kids Iff.rfl (by simp [Heap.content?, hq]) y
    have hold : slotsOf kids h dying r y = (kids c.content).count y := by simp [slotsOf, hnot, Heap.content?, hc]
    have hnew : slotsOf kids (h.put r (some { c with content := x })) dying r y = (kids x).count y := by
      simp [slotsOf, hnot, Heap.content?]
    have := held_exchange kids (hb.bound r (by simp [hc])) put_next hrest y
    rw [total, total]
    omega
  rw [Heap.setContent, hc]
  refine hb.put hc hnot (fun y _ => htotal y) ?_ ?_
  · rw [htotal]
    exact hb.count r c hc
  · rw [htotal]
    exact (hb.alive r hnot).mp (by simp [hc])

/-! ## A content that is changed later -/

/-- `setContent`, where there is something to set. -/
def Heap.reset (h : Heap κ) (d : Nat) (x : κ) : Heap κ :=
  { h with cells := fun o => if o = d then (h.cells o).map fun c => { c with content := x } else h.cells o }

theorem eq_of_cells (hcells : ∀ o, g.cells o = h.cells o) (hnext : g.next = h.next) (hdestroyed : g.destroyed = h.destroyed)
    (hstale : g.stale = h.stale) : g = h := by
  cases g
  cases h
  simp only [Heap.mk.injEq]
  exact ⟨funext hcells, hnext, hdestroyed, hstale⟩

theorem setContent_eq_reset (hc : h.cells r = some c) : h.setContent r x = h.reset r x := by
  rw [Heap.setContent, hc]
  refine eq_of_cells (fun o => ?_) rfl rfl rfl
  by_cases ho : o = r
  · subst ho
    simp [Heap.reset, hc]
  · simp [Heap.reset, ho]

theorem reset_put_self (c : Cell κ) : (h.reset d x).put d (some { c with content := x }) = (h.put d (some c)).reset d x := by
  refine eq_of_cells (fun o => ?_) rfl rfl rfl
  by_cases ho : o = d <;> simp [Heap.reset, ho]

theorem reset_put (hd : r ≠ d) (c : Option (Cell κ)) : (h.reset d x).put r c = (h.put r c).reset d x := by
  refine eq_of_cells (fun o => ?_) rfl rfl rfl
  by_cases ho : o = r
  · simp [Heap.reset, ho, hd]
  · simp [Heap.reset, ho]

theorem reset_none (hc : h.cells r = none) : (h.reset d x).cells r = none := by simp [Heap.reset, hc]

theorem reset_self (hc : h.cells r = some c) : (h.reset r x).cells r = some { c with content := x } := by simp [Heap.reset, hc]

theorem reset_other (hr : r ≠ d) (hc : h.cells r = some c) : (h.reset d x).cells r = some c := by simp [Heap.reset, hr, hc]

theorem retain_reset : (h.reset d x).retain r = (h.retain r).reset d x := by
  cases hc : h.cells r with
  | none =>
    rw [Heap.retain, reset_none hc, Heap.retain, hc]
    rfl
  | some c =>
    by_cases hr : r = d
    · subst hr
      rw [Heap.retain, reset_self hc, Heap.retain, hc]
      exact reset_put_self { c with count := c.count + 1 }
    · rw [Heap.retain, reset_other hr hc, Heap.retain, hc]
      exact reset_put hr _

/-- An object that stays may as well get its new content before the reference is given up. -/
theorem release_reset : ∀ (fuel r : Nat) {h g : Heap κ}, RefCount.release kids fuel r (h.reset d x) = some g →
    d ∉ g.destroyed.map (·.1) → ∃ g', RefCount.release kids fuel r h = some g' ∧ g = g'.reset d x := by
  intro fuel
  induction fuel with
  | zero => exact fun r h g hg => by cases hg
  | succ fuel ih =>
    intro r h g hg hstays
    -- one reference of a content after the other
    have hkids : ∀ (ks : List Nat) {h g : Heap κ}, ks.foldlM (fun g k => RefCount.release kids fuel k g) (h.reset d x) = some g →
        d ∉ g.destroyed.map (·.1) → ∃ g', ks.foldlM (fun g k => RefCount.release kids fuel k g) h = some g' ∧ g = g'.reset d x := by
      intro ks
      induction ks with
      | nil =>
        intro h g hg _
        cases hg
        exact ⟨h, rfl, rfl⟩
      | cons k ks ihks =>
        intro h g hg hstays
        rw [List.foldlM_cons] at hg
        obtain ⟨g₁, hg₁, hg⟩ := Option.bind_eq_some_iff.mp hg
        have hframe := Frame.foldlM (fun g k => release_frame kids fuel k g) ks (.refl g₁) g hg
        obtain ⟨g₁', hfirst, rfl⟩ := ih k hg₁ fun hmem => hstays (hframe.mem_destroyed hmem)
        obtain ⟨g', hg', hreset⟩ := ihks hg hstays
        exact ⟨g', by rw [List.foldlM_cons, hfirst]; exact hg', hreset⟩
    cases hc : h.cells r with
    | none =>
      rw [RefCount.release, reset_none hc] at hg
      cases hg
      exact ⟨h.touch r, by rw [RefCount.release, hc], rfl⟩
    | some c =>
      by_cases hr : r = d
      · subst hr
        rw [RefCount.release, reset_self hc] at hg
        rw [RefCount.release, hc]
        simp only at hg ⊢
        by_cases hpos : 0 < c.count - 1
        · rw [if_pos hpos] at hg ⊢
          cases hg
          exact ⟨_, rfl, reset_put_self { c with count := c.count - 1 }⟩
        · -- the object would not stay
          rw [if_neg hpos] at hg
          obtain ⟨g₁, hg₁, rfl⟩ := Option.map_eq_some_iff.mp hg
          have hframe := Frame.foldlM (fun g k => release_frame kids fuel k g) _ (.refl _) g₁ hg₁
          exact absurd (hframe.mem_destroyed (by simp)) hstays
      · rw [RefCount.release, reset_other hr hc] at hg
        rw [RefCount.release, hc]
        simp only at hg ⊢
        rw [reset_put hr] at hg
        by_cases hpos : 0 < c.count - 1
        · rw [if_pos hpos] at hg ⊢
          cases hg
          exact ⟨_, rfl, rfl⟩
        · rw [if_neg hpos] at hg ⊢
          obtain ⟨g₁, hg₁, rfl⟩ := Option.map_eq_some_iff.mp hg
          obtain ⟨g', hg', rfl⟩ := hkids (kids c.content)
            (h := { h.put r (some { c with count := c.count - 1 }) with destroyed := (r, c.content) :: h.destroyed }) hg₁ hstays
          exact ⟨g'.put r none, Option.map_eq_some_iff.mpr ⟨g', hg', rfl⟩, reset_put hr none⟩

end

end Panthera.Lib.RefCount
