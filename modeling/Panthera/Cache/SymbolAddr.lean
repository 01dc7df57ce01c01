/-
  Panthera.Cache.SymbolAddr — one symbol's address, as the builder bakes it in
  (`find_symbol_in_dylib`) and as dyld reads it from the adjusted symbol table
  (`adjust_symtab_values`, `findSymbolInImage`).

  Both move a value by the slide of the first segment that contains it. The builder
  moves every other value with `__TEXT` and `adjust_symtab_values` leaves it, and so it
  does a value of 0, though a dylib's `__TEXT` may well be linked there. dyld passes
  over a symbol whose name is not in the string table.

  Proved: exactly when the two addresses are the same, for a name that one symbol of the
  dylib has and whatever dyld has looked up before (`symbol_addr_iff`).
-/

import Panthera.Dyld.IndexScan
import Panthera.Cache.Agree

namespace Panthera.Cache

open MachO

/-! ## The two addresses -/

/-- dyld comes to the symbol: its name starts inside the string table, and ends there
    unless the index has overflowed. -/
def Reached (st : SymTab) (name : CStr) (sym : Nlist) (full : Prop) : Prop :=
  sym.strx ≠ 0 ∧ sym.strx < st.strsize ∧ (Dyld.boundedName st sym.strx = some name ∨ full)

/-- The routines move the value alike. -/
def MovedAlike (d : DylibInfo) (val : UInt64) : Prop :=
  (val ≠ 0 ∧ ∃ s ∈ d.segs, s.contains val = true) ∨ relocate d val = val

theorem relocate_eq_adjustSym_iff {d : DylibInfo} {sym : Nlist} (hdef : sym.defined = true) :
    relocate d sym.value = (adjustSym d sym).value ↔ MovedAlike d sym.value := by
  unfold adjustSym MovedAlike
  by_cases h0 : sym.value = 0
  · simp [h0]
  · rw [if_pos ⟨hdef, h0⟩]
    by_cases hin : ∃ s ∈ d.segs, s.contains sym.value = true
    · exact iff_of_true (relocate_eq_adjust hin).symm (.inl ⟨h0, hin⟩)
    · have hnone : d.segs.find? (·.contains sym.value) = none :=
        List.find?_eq_none.mpr fun s hs hc => hin ⟨s, hs, hc⟩
      have hadj : adjustValue d sym.value = sym.value := by simp [adjustValue, hnone]
      rw [or_iff_right fun h => hin h.2]
      show relocate d sym.value = adjustValue d sym.value ↔ _
      rw [hadj]

section Unique

variable {d : DylibInfo} {name : CStr} {st : SymTab} {sym : Nlist} (hunique : st.syms.filter (definesName st name) = [sym])
include hunique

theorem definesName_of_unique : definesName st name sym = true :=
  (List.mem_filter.mp (hunique ▸ List.mem_singleton_self sym)).2

theorem defined_of_unique : sym.defined = true := by
  have h := definesName_of_unique hunique
  simp only [definesName, Bool.and_eq_true] at h
  exact h.1.1

/-- The scan of the adjusted table comes to the one symbol, if its name is in reach. -/
theorem scanMatches_cached : (cachedSymtab d st).syms.filter (Dyld.scanMatches (cachedSymtab d st) name) =
    if sym.strx ≠ 0 ∧ sym.strx < st.strsize then [adjustSym d sym] else [] := by
  have hcond : (fun s => Dyld.scanMatches (cachedSymtab d st) name (adjustSym d s)) =
      fun s => decide (s.strx ≠ 0 ∧ s.strx < st.strsize) && definesName st name s := by
    funext s
    simp only [Dyld.scanMatches, definesName, cachedSymtab, adjustSym_defined, adjustSym_external, adjustSym_strx]
    cases s.defined <;> cases s.external <;> simp [Bool.and_assoc]
    rw [Bool.beq_eq_decide_eq]
  have hfilter : (cachedSymtab d st).syms.filter (Dyld.scanMatches (cachedSymtab d st) name) =
      ((st.syms.filter (definesName st name)).filter fun s => decide (s.strx ≠ 0 ∧ s.strx < st.strsize)).map (adjustSym d) := by
    show (st.syms.map (adjustSym d)).filter _ = _
    rw [List.filter_map, List.filter_filter]
    exact congrArg (List.map _) (congrArg (List.filter · _) hcond)
  rw [hfilter, hunique]
  by_cases h : sym.strx ≠ 0 ∧ sym.strx < st.strsize
  · simp [h]
  · simp [h]

/-- What dyld's lookup returns, from whatever it has indexed before. -/
theorem findSymbolInImage_addr {imgs : List Dyld.LoadedImage} {ix : Dyld.SymbolIndex} (h : Dyld.Tracks imgs ix) {i : Nat}
    {img : Dyld.LoadedImage} (himg : imgs[i]? = some img) (hsym : img.symtab = some (cachedSymtab d st)) :
    (Reached st name sym (Dyld.Overflowed imgs (Dyld.asked ix.indexed i)) →
      (Dyld.findSymbolInImage imgs i name false ix).1.addr = (adjustSym d sym).value + img.slide) ∧
    (¬ Reached st name sym (Dyld.Overflowed imgs (Dyld.asked ix.indexed i)) →
      (Dyld.findSymbolInImage imgs i name false ix).1.addr = 0) := by
  obtain ⟨full, hflag, hfind⟩ := h.find_eq himg name
  have hmatch := scanMatches_cached (d := d) hunique
  have hscan : Dyld.scanSymbols img name false = Dyld.firstStrong 0
      (((cachedSymtab d st).syms.filter (Dyld.scanMatches (cachedSymtab d st) name)).map (Dyld.slidSym img.slide)) := by
    unfold Dyld.scanSymbols
    rw [hsym]
    exact Dyld.scanFrom_eq_firstStrong _ _ _ _ _
  have hdefs : Dyld.named name (Dyld.defsOf imgs i) =
      (((cachedSymtab d st).syms.filter (Dyld.scanMatches (cachedSymtab d st) name)).filter
        fun s => Dyld.boundedName (cachedSymtab d st) s.strx = some name).map (Dyld.slidSym img.slide) := by
    have : Dyld.defsOf imgs i = Dyld.externalDefs img := by simp [Dyld.defsOf, himg]
    rw [this, Dyld.externalDefs, hsym]
    exact Dyld.named_externalDefs _ _ _ _
  have hprefix : Dyld.named name (Dyld.enteredDefs imgs (Dyld.asked ix.indexed i) i) <+: Dyld.named name (Dyld.defsOf imgs i) :=
    Dyld.named_isPrefix Dyld.enteredDefs_isPrefix
  have hbound : Dyld.boundedName (cachedSymtab d st) (adjustSym d sym).strx = Dyld.boundedName st sym.strx := by
    rw [adjustSym_strx]
    rfl
  rw [hmatch] at hscan hdefs
  rw [hfind, Reached, ← hflag]
  by_cases hin : sym.strx ≠ 0 ∧ sym.strx < st.strsize
  · have hone : (Dyld.scanSymbols img name false).addr = (adjustSym d sym).value + img.slide := by
      rw [hscan, if_pos hin]
      exact Dyld.firstStrong_singleton _
    rw [if_pos hin] at hdefs
    by_cases hb : Dyld.boundedName st sym.strx = some name
    · refine ⟨fun _ => ?_, fun hn => absurd ⟨hin.1, hin.2, .inl hb⟩ hn⟩
      have hs : Dyld.named name (Dyld.defsOf imgs i) = [Dyld.slidSym img.slide (adjustSym d sym)] := by
        rw [hdefs, List.filter_cons_of_pos (by rw [hbound]; simpa using hb)]
        rfl
      rw [hs] at hprefix
      rcases List.prefix_cons_iff.mp hprefix with hnil | ⟨rest, heq, hrest⟩
      · -- not entered, so the table was full
        have hfull : full = true := by
          by_contra hnot
          rw [Dyld.enteredDefs_of_not_overflowed fun ho => hnot (hflag.mpr ho), hs] at hnil
          cases hnil
        rw [hnil]
        simpa [Dyld.merged, hfull] using hone
      · rw [heq, List.prefix_nil.mp hrest]
        rfl
    · have hnil : Dyld.named name (Dyld.enteredDefs imgs (Dyld.asked ix.indexed i) i) = [] := by
        rw [hdefs, List.filter_cons_of_neg (by rw [hbound]; simpa using hb)] at hprefix
        exact List.prefix_nil.mp hprefix
      rw [hnil]
      refine ⟨fun h => ?_, fun hn => ?_⟩
      · have hfull : full = true := h.2.2.resolve_left hb
        simpa [Dyld.merged, hfull] using hone
      · have hfull : ¬ full = true := fun hf => hn ⟨hin.1, hin.2, .inr hf⟩
        simp [Dyld.merged, hfull]
  · rw [if_neg hin] at hscan hdefs
    have hnil : Dyld.named name (Dyld.enteredDefs imgs (Dyld.asked ix.indexed i) i) = [] := by
      rw [hdefs] at hprefix
      simpa using hprefix
    rw [hnil, hscan]
    refine ⟨fun h => absurd ⟨h.1, h.2.1⟩ hin, fun _ => ?_⟩
    cases full <;> rfl

end Unique

/-- The dylib's symbol table is one that `adjust_symtab_values` rewrites and dyld finds. -/
structure Tabled (d : DylibInfo) (st : SymTab) : Prop where
  segments : (findSegment d.commands segText).isSome ∧ (findSegment d.commands segLinkedit).isSome
  symtab : lastSymtab d.commands = some st
  moved : SymtabMoved d st

/-- For a symbol whose name no other external definition of its dylib has. -/
theorem symbol_addr_iff {R : Regions} {ds : List DylibInfo} {slide : UInt64} {j : Nat} {d : DylibInfo} {st : SymTab}
    {name : CStr} {sym : Nlist} (hmapped : Mapped ds (builtCache R ds slide)) (hj : ds[j]? = some d) (htab : Tabled d st)
    (hunique : st.syms.filter (definesName st name) = [sym]) (ops : List Dyld.SearchOp) {i : Nat} {path : CStr}
    (himg : (Dyld.Searched.run ops).images[i]? = some (dyldImage (builtCache R ds slide) d path)) (levels : Nat) :
    ∃ addr, findSymbolInDylib ds name (levels + 1) j = some addr ∧
      (addr + slide = (Dyld.findSymbolInImage (Dyld.Searched.run ops).images i name false (Dyld.Searched.run ops).index).1.addr ↔
        (Reached st name sym (Dyld.Overflowed (Dyld.Searched.run ops).images (Dyld.asked (Dyld.Searched.run ops).index.indexed i)) ∧
          MovedAlike d sym.value) ∨
        (¬ Reached st name sym
            (Dyld.Overflowed (Dyld.Searched.run ops).images (Dyld.asked (Dyld.Searched.run ops).index.indexed i)) ∧
          relocate d sym.value + slide = 0)) := by
  have hfind : st.syms.find? (definesName st name) = some sym := by
    rw [← List.head?_filter, hunique]
    rfl
  refine ⟨relocate d sym.value, ?_, ?_⟩
  · simp only [findSymbolInDylib, hj, htab.symtab, if_neg htab.moved.1, hfind]
  · have hsym := dyldImage_symtab htab.segments htab.symtab (hmapped.inText d (List.mem_of_getElem? hj)) hmapped.linkedit path
    obtain ⟨hfound, hlost⟩ := findSymbolInImage_addr hunique (Dyld.run_tracks ops) himg hsym
    have hslide : (dyldImage (builtCache R ds slide) d path).slide = slide := rfl
    rw [hslide] at hfound
    by_cases hr : Reached st name sym
        (Dyld.Overflowed (Dyld.Searched.run ops).images (Dyld.asked (Dyld.Searched.run ops).index.indexed i))
    · rw [hfound hr, UInt64.add_left_inj, relocate_eq_adjustSym_iff (defined_of_unique hunique)]
      simp [hr]
    · rw [hlost hr]
      simp [hr]

/-! ## A dylib linked at 0 -/

/-- `_f` is its first byte and `_g` comes after. -/
def zeroSet : List DylibInfo :=
  (assignAddresses ((loadDylib [.idDylib (cstr "/z"), .segment ⟨segText, 0, 0x1000, 0, 0x1000, 5, []⟩,
    .segment ⟨segLinkedit, 0x1000, 0x1000, 0x1000, 0x1000, 1, []⟩,
    .symtab ⟨0x1000, [⟨1, 0x0F, 0, 0⟩, ⟨4, 0x0F, 0, 0x10⟩], [0] ++ cstr "_f" ++ [0] ++ cstr "_g" ++ [0], 7⟩] []).toList)).2

def zeroDylib : DylibInfo := zeroSet.get ⟨0, by decide⟩

def zeroTab : SymTab := ⟨0x1000, [⟨1, 0x0F, 0, 0⟩, ⟨4, 0x0F, 0, 0x10⟩], [0] ++ cstr "_f" ++ [0] ++ cstr "_g" ++ [0], 7⟩

def zeroCache : Dyld.SharedCache := builtCache (regionsOf zeroSet) zeroSet 0x5000

/-- dyld after it has registered the dylib from the cache. -/
def zeroSearched : Dyld.Searched := .run [.register (dyldImage zeroCache zeroDylib (cstr "/z"))]

theorem zeroDylib_tabled : Tabled zeroDylib zeroTab := by
  refine ⟨by decide, by decide, ?_⟩
  unfold SymtabMoved
  decide

theorem symbol_addr_g : ∃ addr, findSymbolInDylib zeroSet (cstr "_g") 1 0 = some addr ∧
    addr + 0x5000 = (Dyld.findSymbolInImage zeroSearched.images 0 (cstr "_g") false zeroSearched.index).1.addr := by
  obtain ⟨addr, hfind, hiff⟩ := @symbol_addr_iff (regionsOf zeroSet) zeroSet 0x5000 0 zeroDylib zeroTab (cstr "_g")
    ⟨4, 0x0F, 0, 0x10⟩ ⟨by decide, by decide⟩ (by decide) zeroDylib_tabled (by decide)
    [.register (dyldImage zeroCache zeroDylib (cstr "/z"))] 0 (cstr "/z") rfl 0
  refine ⟨addr, hfind, hiff.mpr (.inl ⟨⟨by decide, by decide, .inl (by decide)⟩, .inl ⟨by decide, ?_⟩⟩)⟩
  decide

/-- The builder moves `_f` with `__TEXT`; dyld takes its address for the slide. -/
theorem symbol_at_zero_lost : findSymbolInDylib zeroSet (cstr "_f") 1 0 = some 0x7FFF20000000 ∧
    (Dyld.findSymbolInImage zeroSearched.images 0 (cstr "_f") false zeroSearched.index).1.addr = 0x5000 :=
  ⟨by decide, by decide⟩

end Panthera.Cache
