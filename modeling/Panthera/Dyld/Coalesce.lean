/-
  Panthera.Dyld.Coalesce — do two binds of one name with a flat or weak lookup get the same
  address, whenever they are made in the fixup loop?

  The loop stores words, notes events and resolves symbols (`FixupStep`, `fixupLoop_later`).
  A lookup with ordinal -2 or -3 takes the first strong definition in the order of the table,
  else the first weak one. What an image answers stays the same once it has been looked up
  (`answer_later`), whether or not the symbol index overflows meanwhile; but a bind with a
  positive ordinal may register images between two lookups.

  An image that comes late with a strong definition gets the later binds, while the earlier
  ones stay at the weak one (`flat_binds_coalesce`, `late_strong_definition`).
-/

import Panthera.Dyld.Names
import Panthera.Dyld.Start

namespace Panthera.Dyld

open MachO Lib.Bytes Lib.Run

/-! ## Runs of the fixup loop -/

/-- One thing that the fixups do to the process. -/
inductive FixupStep (W : World) : Proc → Proc → Prop where
  | store (st : Proc) (loc : Nat) (v : UInt64) : FixupStep W st (st.store loc v)
  | log (st : Proc) (e : Event) : FixupStep W st (st.log e)
  | bind (st : Proc) (importer : Nat) (name : CStr) (ordinal : Int) :
      FixupStep W st (resolveSymbol W name ordinal false (some importer) st).2

/-- The second process comes after the first in a run. -/
def Later (W : World) : Proc → Proc → Prop := Relation.ReflTransGen (FixupStep W)

variable (W : World)

theorem fixable_later (st0 : Proc) : Fixable W (Later W st0) where
  store st loc v h := h.tail (.store st loc v)
  resolve i name ordinal st h := h.tail (.bind st i name ordinal)

/-- The fixup loop is such a run. -/
theorem fixupLoop_later (n i : Nat) (st : Proc) : Sound (Later W st) (fixupLoop W n i st) :=
  fixupLoop_inv (fixable_later W st) (fun st' e h => h.tail (.log st' e)) n i .refl

theorem resolveSymbol_moves (name : CStr) (ordinal : Int) (importer : Option Nat) (st : Proc) :
    Moves st (resolveSymbol W name ordinal false importer st).2 := by
  by_cases hshim : symbolName name ∈ shimNames
  · -- dyld answers itself
    have hst : (resolveSymbol W name ordinal false importer st).2 = st := by
      simp only [shimNames, List.mem_cons, List.not_mem_nil, or_false] at hshim
      unfold resolveSymbol
      dsimp only
      rcases hshim with h | h
      · rw [if_pos h]
      · rw [if_pos h]
        split <;> rfl
    rw [hst]
    exact .refl st
  · exact (resolveSymbol_finds W hshim ordinal false importer st).moves

theorem Later.moves {W : World} {st st' : Proc} (h : Later W st st') : Moves st st' := by
  induction h with
  | refl => exact .refl st
  | tail _ hstep ih =>
    refine ih.trans ?_
    cases hstep with
    | store loc v => exact ⟨List.prefix_rfl, fun h => ⟨h, List.prefix_rfl⟩⟩
    | log e => exact ⟨List.prefix_rfl, fun h => ⟨h, List.prefix_rfl⟩⟩
    | bind importer name ordinal => exact resolveSymbol_moves W name ordinal (some importer) _

theorem loadMain_tracks {W : World} {L : Launch} {st : Proc} (h : loadMain W L = some st) : Tracks st.images st.index := by
  unfold loadMain at h
  split at h
  · cases h
  · cases h
    have hmain : Tracks (registerMain L).images (registerMain L).index := tracks_empty.register L.image (by decide)
    have hmoves : Moves (registerMain L) (loadAll (loadImage W maxImages) (dependencies L.commands) (registerMain L)) :=
      loadAll_inv (P := fun st => Moves (registerMain L) st) (fun path st hst => hst.trans (loadImage_moves W maxImages path st)) _
        (.refl _)
    exact (hmoves.tracks hmain).1

/-! ## What an image answers -/

/-- The lookup of a name in image `j`. -/
def answer (st : Proc) (name : CStr) (j : Nat) : Sym := (findSymbolInImage st.images j name false st.index).1

section Entered

variable {imgs imgs' : List LoadedImage} (himgs : imgs <+: imgs')
include himgs

theorem defsOf_later {i : Nat} (hi : i < imgs.length) : defsOf imgs' i = defsOf imgs i := by
  obtain ⟨more, rfl⟩ := himgs
  rw [defsOf, defsOf, List.getElem?_append_left hi]

variable {order order' : List Nat} (horder : order <+: order') (hknown : ∀ i ∈ order, i < imgs.length)
include horder hknown

theorem enteredDefs_later {j : Nat} (hj : j ∈ order) : enteredDefs imgs' order' j = enteredDefs imgs order j := by
  have hdemand : demand imgs' (order.take (order.idxOf j)) = demand imgs (order.take (order.idxOf j)) := by
    unfold demand
    rw [List.map_congr_left fun i hi => by rw [defsOf_later himgs (hknown i (List.mem_of_mem_take hi))]]
  obtain ⟨more, rfl⟩ := horder
  unfold enteredDefs
  rw [if_pos hj, if_pos (List.mem_append_left more hj), List.idxOf_append_of_mem hj,
    List.take_append_of_le_length (List.idxOf_lt_length_of_mem hj).le, hdemand, defsOf_later himgs (hknown j hj)]

theorem overflowed_later (h : Overflowed imgs order) : Overflowed imgs' order' := by
  obtain ⟨i, hi, hne⟩ := h
  refine ⟨i, horder.subset hi, ?_⟩
  rwa [enteredDefs_later himgs horder hknown hi, defsOf_later himgs (hknown i hi)]

end Entered

section Answers

variable {st st' : Proc} {name : CStr} (hne : name ≠ []) {j : Nat} {img : LoadedImage} (hterm : Terminated img name)
include hne hterm

/-- An image that has been looked up answers the same from then on: what was entered of it
    stays, and if nothing was, a later overflow makes the lookup scan for a name that is not
    there. -/
theorem answer_later (ht : Tracks st.images st.index) (hm : Moves st st') (hj : j ∈ st.index.indexed)
    (himg : st.images[j]? = some img) : answer st' name j = answer st name j := by
  obtain ⟨ht', horder⟩ := hm.tracks ht
  obtain ⟨full, hfull, hfind⟩ := ht.find_eq himg name
  obtain ⟨full', hfull', hfind'⟩ := ht'.find_eq (getElem?_mono hm.grows himg) name
  have hasked : asked st.index.indexed j = st.index.indexed := if_pos hj
  have hasked' : asked st'.index.indexed j = st'.index.indexed := if_pos (horder.subset hj)
  have hdefs : defsOf st.images j = externalDefs img := by simp [defsOf, himg]
  have hentered : enteredDefs st'.images st'.index.indexed j = enteredDefs st.images (asked st.index.indexed j) j := by
    rw [hasked]
    exact enteredDefs_later hm.grows horder ht.known hj
  rw [hasked'] at hfind' hfull'
  rw [answer, answer, hfind, hfind', hentered]
  rcases hmerged : merged (named name (enteredDefs st.images (asked st.index.indexed j) j)) with _ | s
  · dsimp only
    cases full with
    | true =>
      have hover : Overflowed st.images st.index.indexed := hasked ▸ hfull.mp rfl
      rw [hfull'.mpr (overflowed_later hm.grows horder ht.known hover)]
    | false =>
      have hnone : named name (externalDefs img) = [] := by
        rw [← hdefs, ← enteredDefs_of_not_overflowed fun h => by simpa using hfull.mpr h]
        exact merged_nil_iff.mp hmerged
      have hscan : scanSymbols img name false = ⟨0, false⟩ := by
        rw [scanSymbols_eq_firstStrong hne hterm, hnone]
        rfl
      rw [hscan]
      split <;> rfl
  · rfl

/-- An image without a strong definition of the name does not answer with one. -/
theorem answer_not_strong (ht : Tracks st.images st.index) (himg : st.images[j]? = some img)
    (hweak : ∀ s, (name, s) ∈ externalDefs img → s.isWeak = true) : (answer st name j).strong = false := by
  obtain ⟨full, -, hfind⟩ := ht.find_eq himg name
  have hdefs : defsOf st.images j = externalDefs img := by simp [defsOf, himg]
  rw [answer, hfind]
  rcases hm : merged (named name (enteredDefs st.images (asked st.index.indexed j) j)) with _ | s
  · dsimp only
    split
    · have hall : ∀ s ∈ named name (externalDefs img), s.isWeak = true := by
        intro s hs
        obtain ⟨d, hd, rfl⟩ := List.mem_map.mp hs
        obtain ⟨hmem, hname⟩ := List.mem_filter.mp hd
        exact hweak d.2 (by rw [← of_decide_eq_true hname]; exact hmem)
      rw [scanSymbols_eq_firstStrong hne hterm, Sym.strong, (firstStrong_of_weak 0 hall).1]
      simp
    · rfl
  · rw [← best_eq_merged] at hm
    have hmem : (name, s) ∈ externalDefs img := hdefs ▸ enteredDefs_isPrefix.subset (best_mem hm)
    simp [Sym.strong, hweak s hmem]

end Answers

/-- The fixup loop is a run of steps, and in a run an image that has been looked up answers the same from then on,
    whatever is registered after. -/
theorem answers_stay (L : Launch) : Sound (fun st0 => Sound (Later W st0) (fixupLoop W maxImages 0 st0) ∧
    ∀ st st', Later W st0 st → Later W st st' → ∀ j ∈ st.index.indexed, ∀ img, st.images[j]? = some img →
      ∀ name ≠ [], Terminated img name → answer st' name j = answer st name j) (loadMain W L) := by
  intro st0 h
  refine ⟨fixupLoop_later W maxImages 0 st0, fun st st' h1 h2 j hj img himg name hne hterm => ?_⟩
  have htracks := (h1.moves.tracks (loadMain_tracks h)).1
  exact answer_later hne hterm htracks h2.moves hj himg

/-- The executable's `_f` is looked up in image 4, whose answer stays. -/
theorem answers_stay_sample : ∃ st, fixedUp sampleWorld sampleLaunch = some st ∧
    ∀ st', Later sampleWorld st st' → answer st' (cstr "_f") 4 = ⟨0x60300, false⟩ := by
  have hst : (fixedUp sampleWorld sampleLaunch).map (fun st => (decide (4 ∈ st.index.indexed),
      st.images[4]?.map fun img => decide (Terminated img (cstr "_f")), answer st (cstr "_f") 4)) =
        some (true, some true, ⟨0x60300, false⟩) := by decide
  obtain ⟨st, hst, hfacts⟩ := Option.map_eq_some_iff.mp hst
  simp only [Prod.mk.injEq, decide_eq_true_eq, Option.map_eq_some_iff] at hfacts
  obtain ⟨hindexed, ⟨img, himg, hterm⟩, hanswer⟩ := hfacts
  obtain ⟨st0, h0, h1⟩ := Option.bind_eq_some_iff.mp hst
  obtain ⟨hlater, hstay⟩ := answers_stay sampleWorld sampleLaunch st0 h0
  exact ⟨st, hst, fun st' h => hanswer ▸ hstay st st' (hlater st h1) h 4 hindexed img himg _ (by decide) hterm⟩

/-- The executable stays first in the table, which keeps its invariant. -/
theorem fixedUp_table (L : Launch) : Sound (fun st => [L.image] <+: st.images ∧ TableInv st) (fixedUp W L) := by
  intro st h
  obtain ⟨st0, h0, h1⟩ := Option.bind_eq_some_iff.mp h
  have hgrows := (fixupLoop_later W maxImages 0 st0 st h1).moves.grows
  exact ⟨(loadMain_fixing W L st0 h0).grows.trans hgrows, (fixedUp_reached W L st h).table⟩

theorem fixedUp_table_sample : ∃ st, fixedUp sampleWorld sampleLaunch = some st ∧ st.images.length = 5 ∧
    [sampleLaunch.image] <+: st.images ∧ TableInv st := by
  have hst : (fixedUp sampleWorld sampleLaunch).map (·.images.length) = some 5 := by decide
  obtain ⟨st, hst, hlen⟩ := Option.map_eq_some_iff.mp hst
  exact ⟨st, hst, hlen, fixedUp_table sampleWorld sampleLaunch st hst⟩

/-! ## The lookup over the table -/

/-- The loop of `resolveFlatNamespaceSymbol` over answers that do not change. -/
def pickFrom (ans : Nat → Sym) : UInt64 → List Nat → UInt64
  | weakAddr, [] => weakAddr
  | weakAddr, i :: is => if (ans i).strong then (ans i).addr else pickFrom ans (nextWeak weakAddr (ans i)) is

/-- Image `i` comes before or is the first of `is` with a strong answer. -/
def Asked (ans : Nat → Sym) (is : List Nat) (i : Nat) : Prop :=
  ∃ pre post, is = pre ++ i :: post ∧ ∀ x ∈ pre, (ans x).strong = false

theorem Asked.cons {ans : Nat → Sym} {is : List Nat} {i x : Nat} (hx : (ans x).strong = false) (h : Asked ans is i) :
    Asked ans (x :: is) i := by
  obtain ⟨pre, post, rfl, hpre⟩ := h
  refine ⟨x :: pre, post, rfl, ?_⟩
  intro y hy
  rcases List.mem_cons.mp hy with rfl | hy
  · exact hx
  · exact hpre y hy

/-- A longer list, with answers that agree where the shorter one was asked. -/
theorem pickFrom_append {ans ans' : Nat → Sym} (more : List Nat) : ∀ {is : List Nat} (weakAddr : UInt64),
    (∀ i, Asked ans is i → ans' i = ans i) → pickFrom ans' weakAddr (is ++ more) =
      if is.any (fun i => (ans i).strong) then pickFrom ans weakAddr is else pickFrom ans' (pickFrom ans weakAddr is) more := by
  intro is
  induction is with
  | nil => intro weakAddr _; rfl
  | cons i is ih =>
    intro weakAddr hagree
    have hi : ans' i = ans i := hagree i ⟨[], is, rfl, by simp⟩
    rw [List.cons_append, pickFrom, pickFrom, hi, List.any_cons]
    cases hs : (ans i).strong with
    | true => simp
    | false =>
      rw [Bool.false_or, if_neg Bool.false_ne_true, if_neg Bool.false_ne_true]
      exact ih _ fun x hx => hagree x (hx.cons hs)

/-- A weak address stays while nothing strong comes. -/
theorem pickFrom_of_weak {ans : Nat → Sym} {a : UInt64} (ha : a ≠ 0) : ∀ {is : List Nat}, (∀ i ∈ is, (ans i).strong = false) →
    pickFrom ans a is = a := by
  intro is
  induction is with
  | nil => intro _; rfl
  | cons i is ih =>
    intro h
    have hweak : nextWeak a (ans i) = a := if_neg fun hc => ha hc.2.2
    rw [pickFrom, h i List.mem_cons_self, if_neg Bool.false_ne_true, hweak]
    exact ih fun x hx => h x (List.mem_cons_of_mem _ hx)

theorem flatLoop_pick {name : CStr} (hne : name ≠ []) : ∀ (is : List Nat) (weakAddr : UInt64) {st st' : Proc},
    st' = { st with index := (flatLoop st.images name false is weakAddr st.index).2 } →
    Tracks st.images st.index → (∀ i ∈ is, i < st.images.length) → (∀ img ∈ st.images, Terminated img name) →
      (flatLoop st.images name false is weakAddr st.index).1 = pickFrom (answer st' name) weakAddr is ∧
        Moves st st' ∧ ∀ i, Asked (answer st' name) is i → i ∈ st'.index.indexed := by
  intro is
  induction is with
  | nil =>
    rintro weakAddr st st' rfl _ _ _
    refine ⟨rfl, .refl _, ?_⟩
    rintro i ⟨pre, post, h, -⟩
    simp at h
  | cons i is ih =>
    rintro weakAddr st st' rfl ht his hterm
    have hi := his i List.mem_cons_self
    have himg := List.getElem?_eq_getElem hi
    have hmax : i < maxImages := Nat.lt_of_lt_of_le hi ht.bounded
    -- the process once image `i` has been looked up
    obtain ⟨st1, hst1⟩ : ∃ st1, st1 = { st with index := (findSymbolInImage st.images i name false st.index).2 } := ⟨_, rfl⟩
    have hmoves : Moves st st1 := hst1 ▸ findSymbolInImage_moves st hi name false
    have hasked : i ∈ st1.index.indexed := by
      rw [hst1]
      dsimp only
      rw [findSymbolInImage_index]
      exact mem_indexed_symbolIndexImage st.images hmax st.index
    have hanswer : answer st1 name i = (findSymbolInImage st.images i name false st.index).1 := by
      rw [hst1, answer]
      exact congrArg Prod.fst (findSymbolInImage_again st.images hmax name st.index)
    have himg1 : st1.images[i]? = some st.images[i] := by rw [hst1]; exact himg
    cases hs : (findSymbolInImage st.images i name false st.index).1.strong with
    | true =>
      have hloop : flatLoop st.images name false (i :: is) weakAddr st.index =
          ((findSymbolInImage st.images i name false st.index).1.addr, st1.index) := by
        rw [flatLoop, hst1]
        simp only [hs, if_true]
      have hst' : { st with index := (flatLoop st.images name false (i :: is) weakAddr st.index).2 } = st1 := by
        rw [hloop, hst1]
      rw [hst', hloop, pickFrom, hanswer, hs, if_pos rfl]
      refine ⟨rfl, hmoves, ?_⟩
      rintro x ⟨pre, post, heq, hpre⟩
      cases pre with
      | nil =>
        obtain ⟨rfl, -⟩ := List.cons.inj heq
        exact hasked
      | cons y pre =>
        obtain ⟨rfl, -⟩ := List.cons.inj heq
        have := hpre i List.mem_cons_self
        rw [hanswer, hs] at this
        cases this
    | false =>
      have hloop : flatLoop st.images name false (i :: is) weakAddr st.index =
          flatLoop st1.images name false is (nextWeak weakAddr (answer st1 name i)) st1.index := by
        rw [hanswer, flatLoop, hst1]
        simp only [hs, Bool.false_eq_true, if_false]
      have hst' : { st with index := (flatLoop st.images name false (i :: is) weakAddr st.index).2 } =
          { st1 with index := (flatLoop st1.images name false is (nextWeak weakAddr (answer st1 name i)) st1.index).2 } := by
        rw [hloop, hst1]
      obtain ⟨hpick, hmoves', hlooked⟩ := ih (nextWeak weakAddr (answer st1 name i)) rfl (hmoves.tracks ht).1
        (by rw [hst1]; exact fun x hx => his x (List.mem_cons_of_mem _ hx)) (by rw [hst1]; exact hterm)
      rw [hst', hloop]
      generalize { st1 with index := (flatLoop st1.images name false is (nextWeak weakAddr (answer st1 name i)) st1.index).2 } = st2
        at hpick hmoves' hlooked ⊢
      have hsame : answer st2 name i = answer st1 name i :=
        answer_later hne (hterm _ (List.getElem_mem hi)) (hmoves.tracks ht).1 hmoves' hasked himg1
      have hweak : (answer st2 name i).strong = false := by rw [hsame, hanswer, hs]
      refine ⟨?_, hmoves.trans hmoves', ?_⟩
      · rw [pickFrom, hweak, if_neg Bool.false_ne_true, hsame]
        exact hpick
      · rintro x ⟨pre, post, heq, hpre⟩
        cases pre with
        | nil =>
          obtain ⟨rfl, -⟩ := List.cons.inj heq
          exact (hmoves'.tracks (hmoves.tracks ht).1).2.subset hasked
        | cons y pre =>
          obtain ⟨rfl, htail⟩ := List.cons.inj heq
          exact hlooked x ⟨pre, post, htail, fun z hz => hpre z (List.mem_cons_of_mem _ hz)⟩

/-! ## Two binds -/

/-- Flat lookup and weak lookup. -/
def isFlat (ordinal : Int) : Prop := ordinal = -2 ∨ ordinal = -3

theorem resolveSymbol_of_isFlat {n : CStr} (hn : symbolName n ∉ shimNames) {ordinal : Int} (ho : isFlat ordinal)
    (includeLocals : Bool) (importer : Option Nat) (st : Proc) :
    resolveSymbol W n ordinal includeLocals importer st = resolveFlatNamespaceSymbol (symbolName n) includeLocals 0 st := by
  simp only [shimNames, List.mem_cons, List.not_mem_nil, or_false, not_or] at hn
  unfold resolveSymbol
  dsimp only
  rw [if_neg hn.1, if_neg (by rintro (h | h); exacts [hn.2.1 h, hn.2.2 h])]
  exact if_pos ho

/-- The names that dyld answers itself have one address each. -/
theorem resolveSymbol_shim {n : CStr} (hn : symbolName n ∈ shimNames) (o1 o2 : Int) (i1 i2 : Option Nat) (st1 st2 : Proc) :
    (resolveSymbol W n o1 false i1 st1).1 = (resolveSymbol W n o2 false i2 st2).1 := by
  simp only [shimNames, List.mem_cons, List.not_mem_nil, or_false] at hn
  unfold resolveSymbol
  dsimp only
  rcases hn with h | h
  · rw [if_pos h, if_pos h]
  · rw [if_pos h, if_pos h]
    split <;> rfl

/-- Two binds of one name with a flat or weak lookup, made at `st1` and later at `st2` in a
    run of the fixup loop, get the same address if the first one found a strong definition,
    or if no image that has been registered between them has one. -/
theorem flat_binds_coalesce {W : World} {L : Launch} {st0 st1 st2 : Proc} (h0 : loadMain W L = some st0) (h1 : Later W st0 st1)
    {n : CStr} (hne : symbolName n ≠ []) {o1 o2 : Int} (ho1 : isFlat o1) (ho2 : isFlat o2) (i1 i2 : Nat)
    (h2 : Later W (resolveSymbol W n o1 false (some i1) st1).2 st2) (hterm : ∀ img ∈ st2.images, Terminated img (symbolName n))
    (hlate : (∃ j < st1.images.length, (answer (resolveSymbol W n o1 false (some i1) st1).2 (symbolName n) j).strong = true) ∨
      ∀ img ∈ st2.images.drop st1.images.length, ∀ s, (symbolName n, s) ∈ externalDefs img → s.isWeak = true)
    (hres : (resolveSymbol W n o1 false (some i1) st1).1 ≠ 0) :
    (resolveSymbol W n o2 false (some i2) st2).1 = (resolveSymbol W n o1 false (some i1) st1).1 := by
  by_cases hshim : symbolName n ∈ shimNames
  · exact resolveSymbol_shim W hshim o2 o1 (some i2) (some i1) st2 st1
  rw [resolveSymbol_of_isFlat W hshim ho1] at h2 hlate hres ⊢
  rw [resolveSymbol_of_isFlat W hshim ho2]
  have ht1 := (h1.moves.tracks (loadMain_tracks h0)).1
  have hgrow1 : st1.images <+: st2.images := h2.moves.grows
  obtain ⟨hpick1, hmoves1, hlooked⟩ := flatLoop_pick hne (List.range st1.images.length) 0 rfl ht1
    (fun i hi => List.mem_range.mp hi) fun img himg => hterm img (hgrow1.subset himg)
  have ht1' := (hmoves1.tracks ht1).1
  have ht2 := (h2.moves.tracks ht1').1
  obtain ⟨st2', hst2'⟩ : ∃ st, st = (resolveFlatNamespaceSymbol (symbolName n) false 0 st2).2 := ⟨_, rfl⟩
  obtain ⟨hpick2, hmoves2, -⟩ := flatLoop_pick hne (List.range st2.images.length) 0 hst2' ht2
    (fun i hi => List.mem_range.mp hi) hterm
  change (flatLoop st1.images _ false _ 0 st1.index).1 ≠ 0 at hres
  change (flatLoop st2.images _ false _ 0 st2.index).1 = (flatLoop st1.images _ false _ 0 st1.index).1
  rw [hpick1] at hres ⊢
  rw [hpick2]
  have himgs2 : st2'.images = st2.images := by rw [hst2']; rfl
  -- the table at the second bind is the table at the first and what came since
  obtain ⟨new, hnew⟩ := hgrow1
  have hlen : st2.images.length = st1.images.length + new.length := by rw [← hnew, List.length_append]
  rw [hlen, List.range_add]
  rw [pickFrom_append _ _ fun i hi => ?_]
  · split
    · rfl
    · rename_i hnone
      refine pickFrom_of_weak hres fun j hj => ?_
      obtain ⟨k, hk, rfl⟩ := List.mem_map.mp hj
      rcases hlate with ⟨j, hj, hstrong⟩ | hlate
      · exact absurd (List.any_eq_true.mpr ⟨j, List.mem_range.mpr hj, hstrong⟩) hnone
      · have hk' : k < new.length := List.mem_range.mp hk
        have himg : st2.images[st1.images.length + k]? = some new[k] := by
          rw [← hnew, List.getElem?_append_right (by omega), Nat.add_sub_cancel_left, List.getElem?_eq_getElem hk']
        have hmem : new[k] ∈ st2.images := List.mem_of_getElem? himg
        refine answer_not_strong hne (hterm _ hmem) (hmoves2.tracks ht2).1 (himgs2 ▸ himg) (hlate _ ?_)
        rw [← hnew, List.drop_left]
        exact List.getElem_mem hk'
  · have hi' : i < st1.images.length := by
      obtain ⟨pre, post, heq, -⟩ := hi
      exact List.mem_range.mp (heq ▸ List.mem_append_right _ List.mem_cons_self)
    exact answer_later hne (hterm _ (hnew ▸ List.mem_append_left _ (List.getElem_mem hi'))) ht1' (h2.moves.trans hmoves2)
      (hlooked i hi) (List.getElem?_eq_getElem hi')

/-! ## A late strong definition -/

def lateText : LoadCommand := .segment ⟨segText, 0, 0x1000, 0, 0, 5, []⟩
def lateData : LoadCommand := .segment ⟨cstr "__DATA", 0x1000, 0x1000, 0, 0, 3, []⟩
def lateLinkedit : LoadCommand := .segment ⟨segLinkedit, 0x2000, 0x1000, 0x800, 0, 1, []⟩

/-- A flat cache of two dylibs. `libA` has a weak `_w` and binds first `_g` of `libB`, then
    `_w` with a weak lookup; `libB` has a strong `_w`. -/
def lateCache : SharedCache where
  valid := true
  splitRegion := false
  preResolved := false
  images := [⟨libA, 0x1000, mhMagic64, [lateText, lateData, lateLinkedit, .dylib .load libB,
      .symtab ⟨0, [⟨1, 0x0F, 0x80, 0x500⟩], 0 :: cstr "_w" ++ [0], 4⟩,
      .dyldInfo ⟨.empty, ⟨[0x11, 0x40, 0x5F, 0x67, 0, 0x71, 0, 0x90, 0x3D, 0x40, 0x5F, 0x77, 0, 0x90], 14, by decide⟩,
        .empty, 0, []⟩], []⟩,
    ⟨libB, 0x5000, mhMagic64, [lateText, lateData, lateLinkedit,
      .symtab ⟨0, [⟨1, 0x0F, 0, 0x600⟩, ⟨4, 0x0F, 0, 0x700⟩], 0 :: cstr "_w" ++ 0 :: cstr "_g" ++ [0], 7⟩], []⟩]
  textAddr := 0
  textSize := 0
  linkAddr := 0
  linkFileOffset := 0
  slide := 0
  base := 0
  fileSize := 0x10000

def lateWorld : World := ⟨lateCache, fun _ => none, fun n => 0x10000 * (UInt64.ofNat n + 1), 1, 2⟩

/-- An executable that links against `libA` and binds `_w` with a weak lookup. -/
def lateLaunch : Launch where
  header := 0x100000000
  magic := mhMagic64
  path := some (cstr "/bin/tool")
  commands := [sampleText 0x100000000, sampleData 0x100001000 0 0 [], sampleLinkedit 0x100002000, .dylib .load libA,
    .dyldInfo ⟨.empty, ⟨[0x3D, 0x40, 0x5F, 0x77, 0, 0x71, 0, 0x90], 8, by decide⟩, .empty, 0, []⟩]
  mem := fun _ => 0
  seed _ _ m := m
  call _ m := m

theorem late_loaded : ∃ st, loadMain lateWorld lateLaunch = some st ∧ (∀ img ∈ st.images, Terminated img (cstr "_w")) ∧
    (resolveSymbol lateWorld (cstr "_w") (-3) false (some 0) st).1 = 0x10500 := by
  have hst : (loadMain lateWorld lateLaunch).map (fun st => (decide (∀ img ∈ st.images, Terminated img (cstr "_w")),
      (resolveSymbol lateWorld (cstr "_w") (-3) false (some 0) st).1)) = some (true, 0x10500) := by decide
  obtain ⟨st, hst, hfacts⟩ := Option.map_eq_some_iff.mp hst
  obtain ⟨hends, hres⟩ := Prod.mk.inj hfacts
  exact ⟨st, hst, of_decide_eq_true hends, hres⟩

/-- Before `libB` is there, two lookups of `_w` agree. -/
theorem flat_binds_coalesce_twice : ∃ st, loadMain lateWorld lateLaunch = some st ∧
    (resolveSymbol lateWorld (cstr "_w") (-2) false (some 1) (resolveSymbol lateWorld (cstr "_w") (-3) false (some 0) st).2).1 =
      0x10500 := by
  obtain ⟨st, hst, hterm, hres⟩ := late_loaded
  have hn : symbolName (cstr "_w") = cstr "_w" := by decide
  have himgs : (resolveSymbol lateWorld (cstr "_w") (-3) false (some 0) st).2.images = st.images := by
    rw [resolveSymbol_of_isFlat lateWorld (by decide) (.inr rfl)]
    rfl
  refine ⟨st, hst, ?_⟩
  rw [← hres]
  refine flat_binds_coalesce hst .refl (by decide) (.inr rfl) (.inl rfl) 0 1 .refl ?_ (.inr ?_) (by rw [hres]; decide)
  · rw [himgs, hn]
    exact hterm
  · rw [himgs, List.drop_length]
    intro img himg
    cases himg

/-- The executable's bind is made before `libB` is registered and gets the weak `_w` of
    `libA`; `libA`'s own bind, of the same name and ordinal, is made after and gets the strong
    one of `libB`. -/
theorem late_strong_definition : ∃ st, fixedUp lateWorld lateLaunch = some st ∧
    read64 st.mem 0x100001000 = 0x10500 ∧ read64 st.mem 0x11008 = 0x20600 := by
  have hst : (fixedUp lateWorld lateLaunch).map (fun st => (read64 st.mem 0x100001000, read64 st.mem 0x11008)) =
      some (0x10500, 0x20600) := by decide
  obtain ⟨st, hst, hfacts⟩ := Option.map_eq_some_iff.mp hst
  obtain ⟨hmain, hlib⟩ := Prod.mk.inj hfacts
  exact ⟨st, hst, hmain, hlib⟩

end Panthera.Dyld
