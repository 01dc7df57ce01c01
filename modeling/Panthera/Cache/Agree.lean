/-
  Panthera.Cache.Agree — the builder's resolution against dyld's on the built cache.

  Both search the re-exports of the ordinal's dylib depth first, and where these are at
  most eight deep both meet the same dylibs in the same order. They part where the
  builder takes the first definition and dyld the first strong one
  (`resolvers_disagree_weak`), where dyld looks at libSystem's re-exports before
  libSystem itself, and where a symbol's value is 0 or in no segment.

  Proved: with the first definition strong, or every one weak, and its value in a
  segment, the address the builder bakes in plus the slide is the address dyld would
  find (`resolvers_agree`).
-/

import Panthera.Cache.Resolve
import Panthera.Dyld.Ordinals

namespace Panthera.Cache

open MachO Lib.Walk

/-! ## The set and dyld's table -/

/-- The symbols of dylib `j` that the builder takes for definitions of the name. -/
def matchesOf (ds : List DylibInfo) (name : CStr) (j : Nat) : List Nlist :=
  match ds[j]?.bind fun d => lastSymtab d.commands with
  | none => []
  | some st => st.syms.filter (definesName st name)

/-- A set whose paths both programs read alike: every name has a directory part, no base
    name comes twice, and what is re-exported is in the set. -/
structure Packed (ds : List DylibInfo) : Prop where
  slashes : ∀ d ∈ ds, slash ∈ d.installName ∧ ∀ path ∈ dependencies d.commands, slash ∈ path
  distinct : ds.Pairwise fun a b => basename a.installName ≠ basename b.installName
  reexports_in : ∀ d ∈ ds, ∀ path ∈ reexports d.commands, ∃ e ∈ ds, basename e.installName = basename path

/-- Symbol tables both programs read alike, as far as the name goes: the table moves
    with `__LINKEDIT`, and a symbol of that name has it inside the string table. -/
structure Readable (d : DylibInfo) (name : CStr) (st : SymTab) : Prop where
  segments : (findSegment d.commands segText).isSome ∧ (findSegment d.commands segLinkedit).isSome
  symtab : lastSymtab d.commands = some st
  moved : SymtabMoved d st
  named : ∀ sym ∈ st.syms, definesName st name sym = true →
    sym.strx ≠ 0 ∧ sym.strx < st.strsize ∧ Dyld.boundedName st sym.strx = some name

/-- The record dyld makes of a dylib it finds in the cache under `path`. -/
def dyldImage (C : Dyld.SharedCache) (d : DylibInfo) (path : CStr) : Dyld.LoadedImage :=
  .ofHeader C (d.textSeg.cacheVmaddr + C.slide) C.slide path (rewriteLoadCommands d)

/-- A table in which the dylibs of the set are registered, dylib `j` as image `φ j`. -/
structure CacheTable (ds : List DylibInfo) (C : Dyld.SharedCache) (imgs : List Dyld.LoadedImage) (φ : Nat → Nat) : Prop where
  registered : ∀ j d, ds[j]? = some d → ∃ path, basename path = basename d.installName ∧
    imgs[φ j]? = some (dyldImage C d path)
  distinct : imgs.Pairwise fun a b => basename a.path ≠ basename b.path

/-! ## Paths -/

variable {d : DylibInfo} {path : CStr} {j : Nat} {ds : List DylibInfo} {C : Dyld.SharedCache} {sym : Nlist}

theorem sameDylib_iff (hd : slash ∈ d.installName) (hp : slash ∈ path) :
    sameDylib d path = true ↔ basename d.installName = basename path := by
  unfold sameDylib lastComponent
  rw [if_pos hd, if_pos hp]
  constructor
  · intro h
    rcases Bool.or_eq_true _ _ ▸ h with h | h
    · rw [beq_iff_eq.mp h]
    · exact (List.cons.inj (beq_iff_eq.mp h)).2
  · intro h
    rw [h]
    simp

theorem pairwise_unique {α : Type} {R : α → α → Prop} {l : List α} (h : l.Pairwise R) {i : Nat} {a b : α}
    (hi : l[i]? = some a) (hj : l[j]? = some b) (hab : ¬ R a b) (hba : ¬ R b a) : i = j := by
  obtain ⟨hil, rfl⟩ := List.getElem?_eq_some_iff.mp hi
  obtain ⟨hjl, rfl⟩ := List.getElem?_eq_some_iff.mp hj
  rcases Nat.lt_trichotomy i j with hlt | heq | hlt
  · exact absurd (List.pairwise_iff_getElem.mp h i j hil hjl hlt) hab
  · exact heq
  · exact absurd (List.pairwise_iff_getElem.mp h j i hjl hil hlt) hba

theorem dylibsNamed_eq (hp : Packed ds) (hs : slash ∈ path) {t : Nat}
    (ht : ds[t]? = some d) (hb : basename d.installName = basename path) : dylibsNamed ds path = [t] := by
  have htl : t < ds.length := (List.getElem?_eq_some_iff.mp ht).1
  have hcongr : dylibsNamed ds path = (List.range ds.length).filter (· == t) := by
    refine List.filter_congr fun j hj => ?_
    have hjl := List.mem_range.mp hj
    have hjd : ds[j]? = some ds[j] := List.getElem?_eq_getElem hjl
    have hiff := sameDylib_iff (hp.slashes ds[j] (List.getElem_mem hjl)).1 hs
    rw [hjd, Option.any_some]
    by_cases hjt : j = t
    · subst hjt
      rw [hjd] at ht
      cases ht
      simp [hiff.mpr hb]
    · have hne : ¬ basename ds[j].installName = basename path := fun h =>
        hjt (pairwise_unique hp.distinct hjd ht (fun hn => hn (h.trans hb.symm)) (fun hn => hn (hb.trans h.symm)))
      rw [Bool.eq_false_iff.mpr fun h => hne (hiff.mp h)]
      simp [hjt]
  rw [hcongr, List.filter_beq, List.count_eq_one_of_mem List.nodup_range (List.mem_range.mpr htl)]
  rfl

variable {imgs : List Dyld.LoadedImage} {img : Dyld.LoadedImage}

/-- With no base name twice, a path finds the image of its base name. -/
theorem findLoadedImageByPath_unique (hd : imgs.Pairwise fun a b => basename a.path ≠ basename b.path) {i : Nat}
    (hi : imgs[i]? = some img) (hb : basename img.path = basename path) :
    Dyld.findLoadedImageByPath imgs path = some i := by
  have hidx : ∀ {k : Nat} (hk : k < imgs.length), basename imgs[k].path = basename path → k = i := fun hk hbk =>
    pairwise_unique hd (List.getElem?_eq_getElem hk) hi (fun hn => hn (hbk.trans hb.symm)) fun hn => hn (hb.trans hbk.symm)
  unfold Dyld.findLoadedImageByPath
  rcases h1 : imgs.findIdx? (·.path == path) with _ | k
  · rcases h2 : imgs.findIdx? (fun img => basename img.path == basename path) with _ | k
    · have := List.findIdx?_eq_none_iff.mp h2 img (List.mem_of_getElem? hi)
      simp [hb] at this
    · obtain ⟨hk, hpk, -⟩ := List.findIdx?_eq_some_iff_getElem.mp h2
      simp only [h1, h2]
      exact congrArg some (hidx hk (beq_iff_eq.mp hpk))
  · obtain ⟨hk, hpk, -⟩ := List.findIdx?_eq_some_iff_getElem.mp h1
    simp only [h1]
    exact congrArg some (hidx hk (congrArg basename (beq_iff_eq.mp hpk)))

/-! ## The same re-export graph -/

theorem dylibNames_rewrite (d : DylibInfo) (p : DylibKind → Bool) :
    dylibNames p (rewriteLoadCommands d) = dylibNames p d.commands := by
  unfold dylibNames rewriteLoadCommands
  rw [List.filterMap_map]
  refine List.filterMap_congr fun c _ => ?_
  cases c <;> rfl

theorem dependencies_rewrite (d : DylibInfo) : dependencies (rewriteLoadCommands d) = dependencies d.commands :=
  dylibNames_rewrite d _

theorem reexports_rewrite (d : DylibInfo) : reexports (rewriteLoadCommands d) = reexports d.commands :=
  dylibNames_rewrite d _

section Graph

variable {ds : List DylibInfo} {C : Dyld.SharedCache} {imgs : List Dyld.LoadedImage} {φ : Nat → Nat}
  (hp : Packed ds) (ht : CacheTable ds C imgs φ)
include hp ht

/-- A path with a directory part means the same dylib to both programs. -/
theorem path_agrees (hs : slash ∈ path) (hin : ∃ e ∈ ds, basename e.installName = basename path) :
    ∃ t, t < ds.length ∧ dylibsNamed ds path = [t] ∧ Dyld.findLoadedImageByPath imgs path = some (φ t) := by
  obtain ⟨e, he, hb⟩ := hin
  obtain ⟨t, ht'⟩ := List.mem_iff_getElem?.mp he
  obtain ⟨q, hq, himg⟩ := ht.registered t e ht'
  exact ⟨t, (List.getElem?_eq_some_iff.mp ht').1, dylibsNamed_eq hp hs ht' hb,
    findLoadedImageByPath_unique ht.distinct himg (hq.trans hb)⟩

theorem paths_agree : ∀ (paths : List CStr), (∀ path ∈ paths, slash ∈ path ∧ ∃ e ∈ ds, basename e.installName = basename path) →
    paths.filterMap (Dyld.findLoadedImageByPath imgs) = (paths.flatMap (dylibsNamed ds)).map φ ∧
      ∀ t ∈ paths.flatMap (dylibsNamed ds), t < ds.length := by
  intro paths
  induction paths with
  | nil => intro _; simp
  | cons path paths ih =>
    intro hall
    obtain ⟨h1, h2⟩ := ih fun q hq => hall q (List.mem_cons_of_mem _ hq)
    obtain ⟨hs, hin⟩ := hall path List.mem_cons_self
    obtain ⟨t, htl, hd, hf⟩ := path_agrees hp ht hs hin
    rw [List.filterMap_cons_some hf, List.flatMap_cons, hd, h1]
    refine ⟨by simp, fun u hu => ?_⟩
    rcases List.mem_append.mp hu with hu | hu
    · rw [List.mem_singleton.mp hu]
      exact htl
    · exact h2 u hu

theorem reexported_agrees (hj : j < ds.length) :
    Dyld.edges imgs (φ j) = (reexported ds j).map φ ∧ ∀ t ∈ reexported ds j, t < ds.length := by
  have hget : ds[j]? = some ds[j] := List.getElem?_eq_getElem hj
  have hmem : ds[j] ∈ ds := List.getElem_mem hj
  obtain ⟨q, -, himg⟩ := ht.registered j ds[j] hget
  have hre : Dyld.reexportsOf imgs (φ j) = reexports ds[j].commands := by
    unfold Dyld.reexportsOf
    rw [himg]
    exact reexports_rewrite ds[j]
  unfold Dyld.edges reexported
  rw [hre, hget]
  refine paths_agree hp ht _ fun path hpath => ⟨?_, hp.reexports_in ds[j] hmem path hpath⟩
  exact (hp.slashes ds[j] hmem).2 path (Dyld.reexports_sub hpath)

theorem renames : Renames (reexported ds) (Dyld.edges imgs) φ (· < ds.length) where
  inj v u hv hu heq := by
    obtain ⟨q, hq, himg⟩ := ht.registered v ds[v] (List.getElem?_eq_getElem hv)
    obtain ⟨q', hq', himg'⟩ := ht.registered u ds[u] (List.getElem?_eq_getElem hu)
    rw [heq, himg'] at himg
    have hpath : q' = q := congrArg Dyld.LoadedImage.path (Option.some.inj himg)
    have hb : basename ds[v].installName = basename ds[u].installName := by rw [← hq, ← hq', hpath]
    exact pairwise_unique hp.distinct (List.getElem?_eq_getElem hv) (List.getElem?_eq_getElem hu) (fun hn => hn hb)
      (fun hn => hn hb.symm)
  closed v hv := (reexported_agrees hp ht hv).2
  edges v hv := (reexported_agrees hp ht hv).1

end Graph

/-! ## The builder finds the first definition -/

/-- The builder's address of the name in dylib `j` alone. -/
def ownAddr (ds : List DylibInfo) (name : CStr) (j : Nat) : Option UInt64 :=
  (matchesOf ds name j).head?.bind fun sym => ds[j]?.map (relocate · sym.value)

theorem firstFound_eq {go : Nat → Option UInt64} {own : Nat → Option UInt64} {nodes : Nat → List Nat} :
    ∀ (js : List Nat), (∀ j ∈ js, go j = some (((nodes j).findSome? own).getD 0) ∧ (nodes j).findSome? own ≠ some 0) →
      firstFound go js = some (((js.flatMap nodes).findSome? own).getD 0) := by
  intro js
  induction js with
  | nil => intro _; rfl
  | cons j js ih =>
    intro hall
    obtain ⟨hgo, hz⟩ := hall j List.mem_cons_self
    have hrest := ih fun k hk => hall k (List.mem_cons_of_mem _ hk)
    unfold firstFound
    rw [hgo, List.flatMap_cons, List.findSome?_append]
    rcases hj : (nodes j).findSome? own with _ | a
    · simpa using hrest
    · have hne : a ≠ 0 := fun h0 => hz (by rw [hj, h0])
      simp [hne]

section Builder

variable {ds : List DylibInfo} {name : CStr} {h : Nat → Nat} (hh : Height (reexported ds) h)
  (hsym : ∀ d ∈ ds, ∃ st, lastSymtab d.commands = some st ∧ st.symoff ≠ 0)
  (hin : ∀ j < ds.length, ∀ t ∈ reexported ds j, t < ds.length)
include hh hsym hin

/-- On a graph without cycles the builder's search returns, with the first definition. -/
theorem findSymbolInDylib_eq : ∀ (levels j : Nat), j < ds.length → h j < levels →
    (∀ k u, Within (reexported ds) k j u → ownAddr ds name u ≠ some 0) →
    findSymbolInDylib ds name levels j =
      some (((preorder (reexported ds) levels j).findSome? (ownAddr ds name)).getD 0) := by
  intro levels
  induction levels with
  | zero => intro j _ hlt; omega
  | succ levels ih =>
    intro j hj hlt hz
    have hget : ds[j]? = some ds[j] := List.getElem?_eq_getElem hj
    obtain ⟨st, hst, hoff⟩ := hsym ds[j] (List.getElem_mem hj)
    have hmatch : matchesOf ds name j = st.syms.filter (definesName st name) := by
      unfold matchesOf
      rw [hget, Option.bind_some, hst]
    have hown : ownAddr ds name j = (st.syms.find? (definesName st name)).map fun sym => relocate ds[j] sym.value := by
      unfold ownAddr
      rw [hmatch, List.head?_filter, hget]
      cases st.syms.find? (definesName st name) <;> rfl
    unfold findSymbolInDylib preorder
    simp only [hget, hst, if_neg hoff]
    rw [List.findSome?_cons, hown]
    rcases hf : st.syms.find? (definesName st name) with _ | sym
    · simp only [Option.map_none]
      refine firstFound_eq _ fun t ht => ?_
      have hlow := hh j t ht
      have hzt : ∀ k u, Within (reexported ds) k t u → ownAddr ds name u ≠ some 0 := fun k u hu => hz (k + 1) u (.step ht hu)
      refine ⟨ih t (hin j hj t ht) (by omega) hzt, fun h0 => ?_⟩
      obtain ⟨u, hu, hu0⟩ := List.exists_of_findSome?_eq_some h0
      obtain ⟨k, hk⟩ := preorder_within levels t u hu
      exact hzt k u hk hu0
    · rfl

end Builder

/-! ## The same symbols -/

section Symbols

variable {d : DylibInfo} {name : CStr} {st : SymTab} (hr : Readable d name st)

@[simp] theorem adjustSym_strx (sym : Nlist) : (adjustSym d sym).strx = sym.strx := by unfold adjustSym; split <;> rfl

@[simp] theorem adjustSym_defined (sym : Nlist) : (adjustSym d sym).defined = sym.defined := by
  unfold adjustSym; split <;> rfl

@[simp] theorem adjustSym_external (sym : Nlist) : (adjustSym d sym).external = sym.external := by
  unfold adjustSym; split <;> rfl

@[simp] theorem adjustSym_weakDef (sym : Nlist) : (adjustSym d sym).weakDef = sym.weakDef := by
  unfold adjustSym; split <;> rfl

/-- The symbol table as the cache has it. -/
def cachedSymtab (d : DylibInfo) (st : SymTab) : SymTab :=
  { st with symoff := adj d st.symoff, syms := st.syms.map (adjustSym d) }

/-- What dyld reads of a symbol in the cache. -/
def dyldSym (d : DylibInfo) (slide : UInt64) (sym : Nlist) : Dyld.Sym := ⟨(adjustSym d sym).value + slide, sym.weakDef⟩

theorem lastSymtab_rewrite (d : DylibInfo) : lastSymtab (rewriteLoadCommands d) = (lastSymtab d.commands).map (cachedSymtab d) := by
  rw [lastSymtab, lastSymtab, rewriteLoadCommands, List.foldl_map]
  refine @List.foldl_hom _ _ _ (Option.map (cachedSymtab d)) _ _ d.commands none fun r c => ?_
  cases c <;> rfl

/-- dyld finds the adjusted table of a dylib that is mapped in the cache. -/
theorem dyldImage_symtab (hsegs : (findSegment d.commands segText).isSome ∧ (findSegment d.commands segLinkedit).isSome)
    (hst : lastSymtab d.commands = some st) (hc : Dyld.isImageFromCache C (d.textSeg.cacheVmaddr + C.slide) = true)
    (hlink : C.linkBase - C.linkFileOffset ≠ 0) (path : CStr) : (dyldImage C d path).symtab = some (cachedSymtab d st) := by
  have hsplit : C.splitRegion = true := by
    unfold Dyld.isImageFromCache at hc
    simp only [Bool.and_eq_true] at hc
    exact hc.1.1.2
  obtain ⟨textSeg, htext⟩ := Option.isSome_iff_exists.mp hsegs.1
  obtain ⟨linkSeg, hl⟩ := Option.isSome_iff_exists.mp hsegs.2
  show Dyld.parseSymtab C _ _ = _
  unfold Dyld.parseSymtab Dyld.linkeditBaseForImage
  simp only [findSegment_rewrite, htext, hl, Option.map_some, hc, hsplit, Bool.and_self, if_true]
  rw [if_neg hlink, lastSymtab_rewrite, hst]
  rfl

/-- One symbol: dyld reads a definition of the name where the builder matches it. -/
theorem externalDef_match (slide : UInt64)
    (hn : definesName st name sym = true →
      sym.strx ≠ 0 ∧ sym.strx < st.strsize ∧ Dyld.boundedName st sym.strx = some name) :
    (Dyld.externalDef (cachedSymtab d st) slide (adjustSym d sym)).filter (·.1 = name) =
      if definesName st name sym then some (name, dyldSym d slide sym) else none := by
  have hbound : Dyld.boundedName (cachedSymtab d st) sym.strx = Dyld.boundedName st sym.strx := rfl
  have hsize : (cachedSymtab d st).strsize = st.strsize := rfl
  unfold Dyld.externalDef
  simp only [adjustSym_defined, adjustSym_external, adjustSym_strx, adjustSym_weakDef, hbound, hsize]
  by_cases hm : definesName st name sym = true
  · obtain ⟨h0, hlt, hname⟩ := hn hm
    unfold definesName at hm
    simp only [Bool.and_eq_true] at hm
    rw [if_neg (by simp [hm.1.1]), if_neg (by simp [hm.1.2]), if_neg (by simpa [h0] using hlt), hname]
    simp [definesName, hm.1.1, hm.1.2, beq_iff_eq.mp hm.2, dyldSym]
  · rw [if_neg hm]
    split
    · rfl
    · split
      · rfl
      · split
        · rfl
        · rename_i hdef hext _
          rcases hb : Dyld.boundedName st sym.strx with _ | n
          · rfl
          · -- a name dyld reads is the one the builder compares
            have hne : n ≠ name := by
              intro heq
              refine hm ?_
              have hc := Dyld.cstrAt_of_boundedName hb
              simp [definesName, hc, heq, Bool.not_eq_false _ ▸ hdef, Bool.not_eq_false _ ▸ hext]
            simp [hne]

include hr in
/-- The definitions dyld reads under the name are the builder's matches, adjusted. -/
theorem externalDefs_filter (hs : img.symtab = some (cachedSymtab d st))
    (hslide : img.slide = C.slide) : (Dyld.externalDefs img).filter (·.1 = name) =
      (st.syms.filter (definesName st name)).map fun sym => (name, dyldSym d C.slide sym) := by
  have hall : ∀ syms : List Nlist, (∀ sym ∈ syms, sym ∈ st.syms) →
      ((syms.map (adjustSym d)).filterMap (Dyld.externalDef (cachedSymtab d st) C.slide)).filter (·.1 = name) =
        (syms.filter (definesName st name)).map fun sym => (name, dyldSym d C.slide sym) := by
    intro syms
    induction syms with
    | nil => intro _; rfl
    | cons sym syms ih =>
      intro hsub
      have hrest := ih fun x hx => hsub x (List.mem_cons_of_mem _ hx)
      have hone := externalDef_match (d := d) C.slide (hr.named sym (hsub sym List.mem_cons_self))
      rw [List.filter_filterMap] at hrest ⊢
      rw [List.map_cons, List.filterMap_cons, hone]
      by_cases hm : definesName st name sym = true
      · rw [if_pos hm, List.filter_cons_of_pos hm, List.map_cons, ← hrest]
      · rw [if_neg hm, List.filter_cons_of_neg hm, ← hrest]
  unfold Dyld.externalDefs
  rw [hs, hslide]
  exact hall st.syms fun _ h => h

end Symbols

/-! ## The same offers -/

/-- The cache is mapped where dyld takes the images for its own. -/
structure Mapped (ds : List DylibInfo) (C : Dyld.SharedCache) : Prop where
  inText : ∀ d ∈ ds, Dyld.isImageFromCache C (d.textSeg.cacheVmaddr + C.slide) = true
  linkedit : C.linkBase - C.linkFileOffset ≠ 0

section Offers

variable {ds : List DylibInfo} {C : Dyld.SharedCache} {imgs : List Dyld.LoadedImage} {φ : Nat → Nat} {name : CStr}
  (ht : CacheTable ds C imgs φ) (hm : Mapped ds C) (hread : ∀ d ∈ ds, ∃ st, Readable d name st) (W : Dyld.World)
include ht hm hread

theorem imageSym_eq (hj : ds[j]? = some d) : Dyld.imageSym W imgs name (φ j) =
    (Dyld.bestFrom name none ((matchesOf ds name j).map fun sym => (name, dyldSym d C.slide sym))).getD ⟨0, false⟩ := by
  obtain ⟨st, hr⟩ := hread d (List.mem_of_getElem? hj)
  obtain ⟨path, -, himg⟩ := ht.registered j d hj
  have hsym := dyldImage_symtab hr.segments hr.symtab (hm.inText d (List.mem_of_getElem? hj)) hm.linkedit path
  have htrie : Dyld.shouldSearchExportTrieForImage imgs (φ j) = false := by
    unfold Dyld.shouldSearchExportTrieForImage
    rw [himg, Option.bind_some, hsym]
    rfl
  have hdefs : (Dyld.defsOf imgs (φ j)).filter (·.1 = name) =
      (matchesOf ds name j).map fun sym => (name, dyldSym d C.slide sym) := by
    unfold Dyld.defsOf matchesOf
    rw [himg, hj, Option.bind_some, hr.symtab]
    exact externalDefs_filter hr hsym rfl
  unfold Dyld.imageSym Dyld.best
  rw [Dyld.bestFrom_filter, hdefs, htrie]
  simp

theorem offers_of_no_match (hj : j < ds.length) (hnone : matchesOf ds name j = []) : Dyld.offers W imgs name (φ j) = .none := by
  unfold Dyld.offers
  rw [imageSym_eq ht hm hread W (List.getElem?_eq_getElem hj), hnone]
  rfl

theorem offers_of_first (hj : ds[j]? = some d) {rest : List Nlist}
    (hmatch : matchesOf ds name j = sym :: rest) (hw : sym.weakDef = false ∨ ∀ s ∈ rest, s.weakDef = true) :
    Dyld.offers W imgs name (φ j) = (dyldSym d C.slide sym).offer := by
  unfold Dyld.offers
  rw [imageSym_eq ht hm hread W hj, hmatch, List.map_cons, Dyld.bestFrom_cons, if_pos rfl]
  show ((Dyld.bestFrom name (some _) _).getD _).offer = _
  rw [Dyld.bestFrom_keep]
  · rfl
  · rcases hw with hw | hw
    · exact .inl hw
    · refine .inr fun x hx _ => ?_
      obtain ⟨s, hs, rfl⟩ := List.mem_map.mp hx
      exact hw s hs

theorem offers_of_weak (hj : j < ds.length) (hw : ∀ s ∈ matchesOf ds name j, s.weakDef = true) :
    (Dyld.offers W imgs name (φ j)).isStrong = false := by
  rcases hmatch : matchesOf ds name j with _ | ⟨sym, rest⟩
  · rw [offers_of_no_match ht hm hread W hj hmatch]
    rfl
  · rw [hmatch] at hw
    rw [offers_of_first ht hm hread W (List.getElem?_eq_getElem hj) hmatch (.inr fun s hs => hw s (List.mem_cons_of_mem _ hs)),
      ← Dyld.Sym.strong_eq]
    simp [Dyld.Sym.strong, dyldSym, hw sym List.mem_cons_self]

end Offers

/-! ## Agreement -/

/-- The first of the dylibs that defines the name at all. -/
def firstDefiner (ds : List DylibInfo) (name : CStr) (js : List Nat) : Option Nat := js.find? fun j => matchesOf ds name j ≠ []

/-- The dylibs in the order of the builder's search from `t`. -/
def closureOf (ds : List DylibInfo) (t : Nat) : List Nat := dfs (reexported ds) Dyld.graphLevels t []

/-- The definition both resolvers come to from `t`: symbol `sym` of dylib `j`. -/
structure Chosen (ds : List DylibInfo) (slide : UInt64) (umbrella : Bool) (name : CStr) (t j : Nat) (d : DylibInfo)
    (sym : Nlist) : Prop where
  dylib : ds[j]? = some d
  first : firstDefiner ds name (closureOf ds t) = some j
  /-- It is also the first where dyld searches libSystem's re-exports beforehand. -/
  shortcut : umbrella = true → firstDefiner ds name (reexported ds t ++ closureOf ds t) = some j
  symbol : (matchesOf ds name j).head? = some sym
  strong : sym.weakDef = false ∨ ∀ i ∈ closureOf ds t, ∀ s ∈ matchesOf ds name i, s.weakDef = true
  value : sym.value ≠ 0
  inSegment : ∃ s ∈ d.segs, s.contains sym.value = true
  nonzero : ∀ i ∈ closureOf ds t, ownAddr ds name i ≠ some 0
  slid : relocate d sym.value + slide ≠ 0

theorem relocate_eq_adjust {val : UInt64} (h : ∃ s ∈ d.segs, s.contains val = true) : adjustValue d val = relocate d val := by
  unfold adjustValue relocate
  rcases hf : d.segs.find? (·.contains val) with _ | s
  · obtain ⟨s, hs, hc⟩ := h
    exact absurd hc (by simpa using List.find?_eq_none.mp hf s hs)
  · simp only [hf]

theorem defined_of_mem_matchesOf {name : CStr} (h : sym ∈ matchesOf ds name j) : sym.defined = true := by
  unfold matchesOf at h
  split at h
  · cases h
  · have hm := (List.mem_filter.mp h).2
    unfold definesName at hm
    simp only [Bool.and_eq_true] at hm
    exact hm.1.1

/-- What comes before the first definer defines nothing. -/
theorem firstDefiner_split {name : CStr} {js : List Nat}
    (h : firstDefiner ds name js = some j) : ∃ pre post, js = pre ++ j :: post ∧ ∀ i ∈ pre, matchesOf ds name i = [] := by
  obtain ⟨-, pre, post, hjs, hpre⟩ := List.find?_eq_some_iff_append.mp h
  exact ⟨pre, post, hjs, fun i hi => by simpa using hpre i hi⟩

/-- A set whose re-exports are at most eight deep. -/
def Shallow (ds : List DylibInfo) : Prop := ∃ h, Height (reexported ds) h ∧ ∀ j, h j ≤ 8

section Agree

variable {ds : List DylibInfo} {slide : UInt64} {umbrella : Bool} {name : CStr} {t j : Nat} {d : DylibInfo} {sym : Nlist}

section

variable (h : Chosen ds slide umbrella name t j d sym)
include h

theorem Chosen.matches : ∃ rest, matchesOf ds name j = sym :: rest := by
  obtain ⟨rest, hrest⟩ := List.head?_eq_some_iff.mp h.symbol
  exact ⟨rest, hrest⟩

theorem Chosen.dyldSym_addr : (dyldSym d slide sym).addr = relocate d sym.value + slide := by
  obtain ⟨rest, hrest⟩ := h.matches
  have hdef : sym.defined = true := defined_of_mem_matchesOf (hrest ▸ List.mem_cons_self)
  unfold dyldSym adjustSym
  rw [if_pos ⟨hdef, h.value⟩]
  show adjustValue d sym.value + slide = _
  rw [relocate_eq_adjust h.inSegment]

/-- The builder bakes in the chosen definition. -/
theorem Chosen.builder (hsh : Shallow ds)
    (hin : ∀ j < ds.length, ∀ t ∈ reexported ds j, t < ds.length)
    (hread : ∀ d ∈ ds, ∃ st, Readable d name st) (htl : t < ds.length) {levels : Nat} (hlev : 8 < levels) :
    findSymbolInDylib ds name levels t = some (relocate d sym.value) ∧ relocate d sym.value ≠ 0 := by
  obtain ⟨ht, hh, h8⟩ := hsh
  have h8t := h8 t
  have hclosure : ∀ k u, Within (reexported ds) k t u → u ∈ closureOf ds t := fun k u hu =>
    dfs_complete hh (by show ht t < 9; omega) hu
  have hsym : ∀ d ∈ ds, ∃ st, lastSymtab d.commands = some st ∧ st.symoff ≠ 0 := fun d hd =>
    let ⟨st, hr⟩ := hread d hd
    ⟨st, hr.symtab, hr.moved.1⟩
  have hown : ownAddr ds name j = some (relocate d sym.value) := by
    unfold ownAddr
    rw [h.symbol, h.dylib]
    rfl
  obtain ⟨pre, post, hsplit, hpre⟩ := firstDefiner_split h.first
  have hpre' : pre.findSome? (ownAddr ds name) = none := by
    refine List.findSome?_eq_none_iff.mpr fun i hi => ?_
    unfold ownAddr
    rw [hpre i hi]
    rfl
  have hfind := findSymbolInDylib_eq hh hsym hin levels t htl (by omega) fun k u hu => h.nonzero u (hclosure k u hu)
  rw [preorder_levels hh levels Dyld.graphLevels t (by omega) (by show ht t < 9; omega),
    preorder_first hh (by show ht t < 9; omega)] at hfind
  have hlist : (closureOf ds t).findSome? (ownAddr ds name) = some (relocate d sym.value) := by
    rw [hsplit, List.findSome?_append, hpre', List.findSome?_cons, hown]
    rfl
  refine ⟨hfind.trans ?_, fun h0 => ?_⟩
  · show some (((closureOf ds t).findSome? (ownAddr ds name)).getD 0) = _
    rw [hlist]
    rfl
  · refine h.nonzero j ?_ (by rw [hown, h0])
    rw [hsplit]
    simp

end

/-- dyld's search comes to the chosen definition. -/
theorem Chosen.dyld {φ : Nat → Nat} (h : Chosen ds C.slide (Dyld.isLibSystemUmbrella imgs (φ t)) name t j d sym) (hp : Packed ds)
    (ht : CacheTable ds C imgs φ) (hm : Mapped ds C) (hread : ∀ d ∈ ds, ∃ st, Readable d name st) (hsh : Shallow ds)
    (htl : t < ds.length) (W : Dyld.World) :
    pick (Dyld.offers W imgs name) (Dyld.searched imgs (φ t)) = (dyldSym d C.slide sym).offer := by
  obtain ⟨hgt, hh, h8⟩ := hsh
  have h8t := h8 t
  have hren := renames hp ht
  obtain ⟨hdfs, hlt⟩ := hren.dfs_map Dyld.graphLevels t [] htl (by simp)
  -- dyld's order, by index of the set
  obtain ⟨js, hjs, hjlt, hjin, hfirst⟩ : ∃ js, Dyld.searched imgs (φ t) = js.map φ ∧ (∀ i ∈ js, i < ds.length) ∧
      (∀ i ∈ js, i ∈ closureOf ds t) ∧ firstDefiner ds name js = some j := by
    unfold Dyld.searched
    rw [hren.edges t htl]
    rcases humb : Dyld.isLibSystemUmbrella imgs (φ t) with _ | _
    · exact ⟨closureOf ds t, hdfs, hlt, fun _ hi => hi, h.first⟩
    · refine ⟨reexported ds t ++ closureOf ds t, ?_, ?_, ?_, h.shortcut humb⟩
      · rw [List.map_append]
        exact congrArg _ hdfs
      · intro i hi
        rcases List.mem_append.mp hi with hi | hi
        · exact hren.closed t htl i hi
        · exact hlt i hi
      · intro i hi
        rcases List.mem_append.mp hi with hi | hi
        · exact dfs_complete hh (k := 1) (by show hgt t < 9; omega) (.step hi .here)
        · exact hi
  obtain ⟨pre, post, hsplit, hpre⟩ := firstDefiner_split hfirst
  obtain ⟨rest, hrest⟩ := h.matches
  have hmem : ∀ i ∈ post, i < ds.length ∧ i ∈ closureOf ds t := fun i hi =>
    have hi' : i ∈ js := by rw [hsplit]; simp [hi]
    ⟨hjlt i hi', hjin i hi'⟩
  have hjmem : j ∈ closureOf ds t := hjin j (by rw [hsplit]; simp)
  have hnone : pick (Dyld.offers W imgs name) (pre.map φ) = .none := by
    refine pick_none_iff.mpr fun v hv => ?_
    obtain ⟨i, hi, rfl⟩ := List.mem_map.mp hv
    exact offers_of_no_match ht hm hread W (hjlt i (by rw [hsplit]; simp [hi])) (hpre i hi)
  have hoffer : Dyld.offers W imgs name (φ j) = (dyldSym d C.slide sym).offer := by
    refine offers_of_first ht hm hread W h.dylib hrest ?_
    rcases h.strong with hs | hs
    · exact .inl hs
    · exact .inr fun s hin => hs j hjmem s (hrest ▸ List.mem_cons_of_mem _ hin)
  have haddr : (dyldSym d C.slide sym).addr ≠ 0 := h.dyldSym_addr ▸ h.slid
  rw [hjs, hsplit, List.map_append, List.map_cons, pick_append, hnone, Offer.none_orElse, pick_cons, hoffer]
  rcases h.strong with hs | hs
  · refine Offer.orElse_of_strong ?_ _
    rw [← Dyld.Sym.strong_eq]
    simp [Dyld.Sym.strong, haddr, show (dyldSym d C.slide sym).isWeak = false from hs]
  · have hweak : (dyldSym d C.slide sym).offer = .weak (dyldSym d C.slide sym).addr := by
      unfold Dyld.Sym.offer
      rw [if_neg haddr]
      exact if_pos (hs j hjmem sym (hrest ▸ List.mem_cons_self))
    rw [hweak]
    refine Offer.weak_orElse _ (Bool.eq_false_iff.mpr fun hstrong => ?_)
    obtain ⟨v, hv, his⟩ := pick_strong_iff.mp hstrong
    obtain ⟨i, hi, rfl⟩ := List.mem_map.mp hv
    rw [offers_of_weak ht hm hread W (hmem i hi).1 (hs i (hmem i hi).2)] at his
    cases his

end Agree

/-- The address baked in, moved by the slide, is the address dyld would find. -/
theorem resolvers_agree {R : Regions} {ds : List DylibInfo} {slide : UInt64} {imgs : List Dyld.LoadedImage} {φ : Nat → Nat}
    (hp : Packed ds) (hsh : Shallow ds) (hm : Mapped ds (builtCache R ds slide))
    (ht : CacheTable ds (builtCache R ds slide) imgs φ) (hl : Dyld.Linked imgs) (hroom : Dyld.Room imgs) {st : Dyld.Proc}
    (hs : Dyld.Settled imgs st) (W : Dyld.World) {name : CStr} (hname : Dyld.PlainName name)
    (hpref : preferredProviderForSymbol name = none) (hread : ∀ d ∈ ds, ∃ st, Readable d name st)
    {importer : Nat} {ordinal : Int} (hord : 0 < ordinal) {path : CStr}
    (hpath : (ds[importer]?.bind fun d => (dependencies d.commands)[ordinal.toNat - 1]?) = some path)
    {t : Nat} {e : DylibInfo} (hte : ds[t]? = some e) (hpe : basename e.installName = basename path)
    {j : Nat} {d : DylibInfo} {sym : Nlist} (hch : Chosen ds slide (Dyld.isLibSystemUmbrella imgs (φ t)) name t j d sym)
    {levels : Nat} (hlev : 8 < levels) :
    ∃ addr, resolveSymbol ds levels name importer ordinal = some addr ∧
      (Dyld.resolveSymbol W name ordinal false (some (φ importer)) st).1 = addr + slide := by
  obtain ⟨dm, hdm, hdep⟩ := Option.bind_eq_some_iff.mp hpath
  have htl : t < ds.length := (List.getElem?_eq_some_iff.mp hte).1
  have hslash : slash ∈ path := (hp.slashes dm (List.mem_of_getElem? hdm)).2 path (List.mem_of_getElem? hdep)
  obtain ⟨hbuild, hne⟩ := hch.builder hsh (renames hp ht).closed hread htl hlev
  refine ⟨relocate d sym.value, ?_, ?_⟩
  · have htargets : ordinalTargets ds importer ordinal = [t] := by
      unfold ordinalTargets
      rw [if_pos hord, hpath]
      exact dylibsNamed_eq hp hslash hte hpe
    unfold resolveSymbol
    rw [hpref, htargets]
    show firstFound _ (t :: List.range ds.length) = _
    rw [firstFound, hbuild]
    exact if_pos hne
  · obtain ⟨q, -, himp⟩ := ht.registered importer dm hdm
    obtain ⟨q', hq', himg⟩ := ht.registered t e hte
    have hfind : (Dyld.ordinalPath imgs (φ importer) ordinal).bind (Dyld.findLoadedImageByPath imgs) = some (φ t) := by
      unfold Dyld.ordinalPath
      rw [if_neg (by omega), himp, Option.bind_some]
      show ((dependencies (rewriteLoadCommands dm))[ordinal.toNat - 1]?).bind _ = _
      rw [dependencies_rewrite, hdep, Option.bind_some]
      exact findLoadedImageByPath_unique ht.distinct himg (hq'.trans hpe)
    rw [Dyld.resolveSymbol_positive hl hroom W hname hord hs hfind, hch.dyld hp ht hm hread hsh htl W,
      Dyld.symOf_addr_offer]
    exact hch.dyldSym_addr

/-! ## A small set -/

/-- The load commands of a dylib of one page of code. -/
def exampleCommands (name : String) (deps : List LoadCommand) (syms : List Nlist) : List LoadCommand :=
  [.idDylib (cstr name), .segment ⟨segText, 0x1000, 0x1000, 0, 0x1000, 5, []⟩,
    .segment ⟨segLinkedit, 0x2000, 0x1000, 0x1000, 0x1000, 1, []⟩,
    .symtab ⟨0x1000, syms, [0] ++ cstr "_f" ++ [0] ++ cstr "_g" ++ [0], 7⟩] ++ deps

/-- `m` links `t`, which defines `_f` weakly and re-exports `u`; `u` defines `_f` and `_g`. -/
def exampleSet : List DylibInfo :=
  (assignAddresses (([exampleCommands "/m" [.dylib .load (cstr "/t")] [],
    exampleCommands "/t" [.dylib .reexport (cstr "/u")] [⟨1, 0x0F, 0x80, 0x1010⟩],
    exampleCommands "/u" [] [⟨1, 0x0F, 0, 0x1020⟩, ⟨4, 0x0F, 0, 0x1030⟩]]).foldl
      (fun ds cmds => ds ++ (loadDylib cmds ds).toList) [])).2

def exampleCache : Dyld.SharedCache := builtCache (regionsOf exampleSet) exampleSet 0x5000

def exampleTable : List Dyld.LoadedImage := exampleSet.map fun d => dyldImage exampleCache d d.installName

theorem exampleSet_packed : Packed exampleSet where
  slashes := by decide
  distinct := by decide
  reexports_in := by decide

theorem exampleSet_shallow : Shallow exampleSet := by
  refine ⟨fun j => 2 - j, fun v u hu => ?_, fun j => by show 2 - j ≤ 8; omega⟩
  have hall : ∀ v < 3, ∀ u ∈ reexported exampleSet v, 2 - u < 2 - v := by decide
  by_cases hv : v < 3
  · exact hall v hv u hu
  · have hlen : exampleSet.length = 3 := by decide
    rw [reexported, List.getElem?_eq_none (by omega)] at hu
    cases hu

theorem exampleSet_mapped : Mapped exampleSet exampleCache := ⟨by decide, by decide⟩

theorem exampleTable_holds : CacheTable exampleSet exampleCache exampleTable id where
  registered j d hj := ⟨d.installName, rfl, by simp [exampleTable, hj]⟩
  distinct := by decide

theorem exampleTable_linked : Dyld.Linked exampleTable := by
  unfold Dyld.Linked
  decide

theorem exampleTable_room : Dyld.Room exampleTable := ⟨by decide, by decide⟩

theorem exampleSet_readable : ∀ d ∈ exampleSet, ∃ st, Readable d (cstr "_g") st := by
  have hall : ∀ d ∈ exampleSet, ∃ st ∈ (lastSymtab d.commands).toList,
      ((findSegment d.commands segText).isSome ∧ (findSegment d.commands segLinkedit).isSome) ∧
      (st.symoff ≠ 0 ∧ d.linkSeg.any fun s => s.origFileoff ≠ 0 ∧ s.origFileoff ≤ st.symoff.toUInt64 ∧
        (s.cacheFileOff + (st.symoff.toUInt64 - s.origFileoff)).toNat < 2 ^ 32) ∧
      ∀ sym ∈ st.syms, definesName st (cstr "_g") sym = true →
        sym.strx ≠ 0 ∧ sym.strx < st.strsize ∧ Dyld.boundedName st sym.strx = some (cstr "_g") := by decide
  intro d hd
  obtain ⟨st, hst, hseg, hmoved, hnamed⟩ := hall d hd
  exact ⟨st, hseg, Option.mem_toList.mp hst, hmoved, hnamed⟩

def exampleU : DylibInfo := exampleSet.get ⟨2, by decide⟩

theorem exampleU_chosen : Chosen exampleSet 0x5000 (Dyld.isLibSystemUmbrella exampleTable (id 1)) (cstr "_g") 1 2 exampleU
    ⟨4, 0x0F, 0, 0x1030⟩ where
  dylib := by decide
  first := by decide
  shortcut := by decide
  symbol := by decide
  strong := .inl rfl
  value := by decide
  inSegment := by decide
  nonzero := by decide
  slid := by decide

theorem resolvers_agree_g : ∃ addr, resolveSymbol exampleSet 9 (cstr "_g") 0 1 = some addr ∧
    (Dyld.resolveSymbol Dyld.bareWorld (cstr "_g") 1 false (some 0) (.ofImages exampleTable)).1 = addr + 0x5000 := by
  have hpath : (exampleSet[0]?.bind fun d => (dependencies d.commands)[(1 : Int).toNat - 1]?) = some (cstr "/t") := by
    decide
  have ht : exampleSet[1]? = some (exampleSet.get ⟨1, by decide⟩) := by decide
  exact resolvers_agree (φ := id) exampleSet_packed exampleSet_shallow exampleSet_mapped exampleTable_holds
    exampleTable_linked exampleTable_room (Dyld.settled_ofImages exampleTable) Dyld.bareWorld ⟨by decide, by decide⟩
    (by decide) exampleSet_readable (by decide) hpath ht (by decide) exampleU_chosen (by decide)

/-- The builder bakes in the weak `_f` of `t`; dyld would find the strong one of `u`. -/
theorem resolvers_disagree_weak : ∃ addr, resolveSymbol exampleSet 9 (cstr "_f") 0 1 = some addr ∧
    (Dyld.resolveSymbol Dyld.bareWorld (cstr "_f") 1 false (some 0) (.ofImages exampleTable)).1 ≠ addr + 0x5000 :=
  ⟨0x7FFF20001010, by decide, by decide⟩

end Panthera.Cache
