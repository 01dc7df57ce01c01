/-
  Panthera.Dyld.Resolve — symbol resolution (`resolveSymbolFromImageGraph`,
  `resolveDirectReexportSymbol`, `resolveFlatNamespaceSymbol`, `resolveSymbol`).

  A symbol bound to the k-th dylib of its importer is searched for in that dylib and
  on along its re-exports, eight edges deep, with one visited array for the whole
  search; other symbols are searched for in the whole table. A strong definition wins
  over a weak one, and an address of 0 counts as no definition.

  On a table that needs no loading (`Closed`), with room in the symbol index (`Room`),
  the graph search is the library's `walk` over the re-export edges (`graph_spec`). An
  image first met at the end of a long path is marked there and its own re-exports are
  never looked at, even where a short path leads to them (`graph_diamond_lost`).

  Main result: `graph_resolves_iff`.
-/

import Panthera.Lib.Walk
import Panthera.Dyld.ExportTrie

namespace Panthera.Dyld

open MachO Lib.Walk

/-! ## One image -/

/-- `addr && !isWeak` -/
def Sym.strong (s : Sym) : Bool := s.addr != 0 && !s.isWeak

/-- The first weak address that is not 0 stays. -/
def nextWeak (weakAddr : UInt64) (s : Sym) : UInt64 := if s.addr ≠ 0 ∧ s.isWeak ∧ weakAddr = 0 then s.addr else weakAddr

def shouldSearchExportTrieForImage (images : List LoadedImage) (i : Nat) : Bool := (images[i]?.bind (·.symtab)).isNone

/-- The image's symbol table first, then, for an image without one, its export trie. -/
def searchImage (W : World) (name : CStr) (includeLocals : Bool) (i : Nat) (st : Proc) : Sym × Proc :=
  let r := findSymbolInImage st.images i name includeLocals st.index
  let st := { st with index := r.2 }
  if r.1.addr = 0 ∧ includeLocals = false ∧ shouldSearchExportTrieForImage st.images i then
    findExportTrieSymbolInImage W i name st
  else (r.1, st)

/-! ## The re-export graph -/

def reexportsOf (images : List LoadedImage) (i : Nat) : List CStr :=
  (images[i]?.map fun img => reexports img.commands).getD []

/-- The loop over the re-exports that both searches make; `go` searches one of them and
    `τ` is what it keeps. -/
def reexportLoop {τ : Type} (W : World) (go : Nat → τ → Proc → Sym × τ × Proc) :
    List CStr → UInt64 → τ → Proc → Sym × τ × Proc
  | [], weakAddr, t, st => (⟨weakAddr, weakAddr != 0⟩, t, st)
  | path :: paths, weakAddr, t, st =>
    match findOrLoad W path st with
    | (none, st) => reexportLoop W go paths weakAddr t st
    | (some dep, st) =>
      match go dep t st with
      | (s, t, st) =>
        if s.strong then (⟨s.addr, false⟩, t, st)
        else reexportLoop W go paths (nextWeak weakAddr s) t st

/-- The recursion with `9 - depth` levels left; `visited` lists the marked images. -/
def resolveSymbolFromImageGraphInternal (W : World) (name : CStr) (includeLocals : Bool) :
    Nat → Nat → List Nat → Proc → Sym × List Nat × Proc
  | 0, _, visited, st => (⟨0, false⟩, visited, st)
  | levels + 1, i, visited, st =>
    if i ∈ visited then (⟨0, false⟩, visited, st)
    else
      match searchImage W name includeLocals i st with
      | (s, st) =>
        if s.strong then (⟨s.addr, false⟩, visited ++ [i], st)
        else reexportLoop W (resolveSymbolFromImageGraphInternal W name includeLocals levels) (reexportsOf st.images i)
          (if s.isWeak then s.addr else 0) (visited ++ [i]) st

/-- Depths 0 to 8. -/
def graphLevels : Nat := 9

def resolveSymbolFromImageGraph (W : World) (i : Nat) (name : CStr) (includeLocals : Bool) (st : Proc) : Sym × Proc :=
  match resolveSymbolFromImageGraphInternal W name includeLocals graphLevels i [] st with
  | (s, _, st) => (s, st)

def searchReexport (W : World) (name : CStr) (includeLocals : Bool) (dep : Nat) (_ : Unit) (st : Proc) : Sym × Unit × Proc :=
  match searchImage W name includeLocals dep st with
  | (s, st) => (s, (), st)

def resolveDirectReexportSymbol (W : World) (i : Nat) (name : CStr) (includeLocals : Bool) (st : Proc) : Sym × Proc :=
  match reexportLoop W (searchReexport W name includeLocals) (reexportsOf st.images i) 0 () st with
  | (s, _, st) => (s, st)

/-! ## `resolveSymbol` -/

/-- The loop over the table. -/
def flatLoop (images : List LoadedImage) (name : CStr) (includeLocals : Bool) :
    List Nat → UInt64 → SymbolIndex → UInt64 × SymbolIndex
  | [], weakAddr, ix => (weakAddr, ix)
  | i :: is, weakAddr, ix =>
    match findSymbolInImage images i name includeLocals ix with
    | (s, ix) =>
      if s.strong then (s.addr, ix)
      else flatLoop images name includeLocals is (nextWeak weakAddr s) ix

def resolveFlatNamespaceSymbol (name : CStr) (includeLocals : Bool) (weakAddr : UInt64) (st : Proc) : UInt64 × Proc :=
  match flatLoop st.images name includeLocals (List.range st.images.length) weakAddr st.index with
  | (addr, ix) => (addr, { st with index := ix })

def libSystemPath : CStr := cstr "/usr/lib/libSystem.B.dylib"

def isLibSystemUmbrella (images : List LoadedImage) (i : Nat) : Bool := (images[i]?.map (·.path)) == some libSystemPath

def underscore : UInt8 := 0x5F

/-- The prefix before the first underscore is skipped, unless it is the stub binder. -/
def symbolName (name : CStr) : CStr :=
  if name = cstr "dyld_stub_binder" then name else name.dropWhile (· ≠ underscore)

/-- The search of libSystem's re-exports that goes before the graph search. -/
def umbrellaShortcut (W : World) (name : CStr) (includeLocals : Bool) (preferred : Nat) (st : Proc) : Sym × Proc :=
  if isLibSystemUmbrella st.images preferred then resolveDirectReexportSymbol W preferred name includeLocals st
  else (⟨0, false⟩, st)

/-- The branch of a positive ordinal, once its dylib is known. -/
def resolveInPreferred (W : World) (name : CStr) (includeLocals : Bool) (preferred : Nat) (st : Proc) : UInt64 × Proc :=
  match umbrellaShortcut W name includeLocals preferred st with
  | (s, st) =>
    if s.strong then (s.addr, st)
    else
      match resolveSymbolFromImageGraph W preferred name includeLocals st with
      | (g, st) => if g.strong then (g.addr, st) else (if s.addr ≠ 0 then s.addr else g.addr, st)

def resolveSymbol (W : World) (name : CStr) (ordinal : Int) (includeLocals : Bool) (importer : Option Nat) (st : Proc) :
    UInt64 × Proc :=
  let name := symbolName name
  if name = cstr "_ttyname" then (W.ttynameShim, st)
  else if name = cstr "_ttyname_r" ∨ name = cstr "_ttyname_r$UNIX2003" then (W.ttynameRShim, st)
  else if ordinal = -2 ∨ ordinal = -3 then resolveFlatNamespaceSymbol name includeLocals 0 st
  else if ordinal < -3 then (0, st)
  else
    match importer with
    | some i =>
      if 0 < ordinal then
        match findOrdinalImage W i ordinal st with
        | (none, st) => (0, st)
        | (some preferred, st) => resolveInPreferred W name includeLocals preferred st
      else resolveFlatNamespaceSymbol name includeLocals 0 st
    | none => resolveFlatNamespaceSymbol name includeLocals 0 st

/-! ## Invariants -/

variable {st : Proc} {s : Sym} {o : Offer UInt64}

variable (weakAddr : UInt64)

section Invariants

variable {W : World} {P : Proc → Prop} (hP : Invariant W P)
include hP

variable (name : CStr) (includeLocals : Bool) (h : P st)

theorem withIndex_inv (ix : SymbolIndex) (h : P st) : P { st with index := ix } :=
  hP.keeps st _ ⟨rfl, rfl⟩ h

theorem searchImage_inv (i : Nat) (h : P st) : P (searchImage W name includeLocals i st).2 := by
  unfold searchImage
  dsimp only
  split
  · exact findExportTrieSymbolInImage_inv hP i name (withIndex_inv hP _ h)
  · exact withIndex_inv hP _ h

theorem reexportLoop_inv {τ : Type} {go : Nat → τ → Proc → Sym × τ × Proc}
    (hgo : ∀ dep t {st : Proc}, P st → P (go dep t st).2.2) : ∀ (paths : List CStr) (weakAddr : UInt64) (t : τ) {st : Proc},
    P st → P (reexportLoop W go paths weakAddr t st).2.2 := by
  intro paths
  induction paths with
  | nil => intro weakAddr t st h; exact h
  | cons path paths ih =>
    intro weakAddr t st h
    have hfind := findOrLoad_inv hP path h
    unfold reexportLoop
    split
    · rename_i st1 heq
      rw [heq] at hfind
      exact ih _ _ hfind
    · rename_i dep st1 heq
      rw [heq] at hfind
      have hdep := hgo dep t hfind
      dsimp only
      split
      · exact hdep
      · exact ih _ _ hdep

theorem graphInternal_inv : ∀ (levels i : Nat) (visited : List Nat) {st : Proc},
    P st → P (resolveSymbolFromImageGraphInternal W name includeLocals levels i visited st).2.2 := by
  intro levels
  induction levels with
  | zero => intro i visited st h; exact h
  | succ levels ih =>
    intro i visited st h
    have hs := searchImage_inv hP name includeLocals i h
    unfold resolveSymbolFromImageGraphInternal
    dsimp only
    split
    · exact h
    · split
      · exact hs
      · exact reexportLoop_inv hP (fun dep visited _ h => ih dep visited h) _ _ _ hs

theorem umbrellaShortcut_inv (preferred : Nat) (h : P st) : P (umbrellaShortcut W name includeLocals preferred st).2 := by
  unfold umbrellaShortcut
  split
  · unfold resolveDirectReexportSymbol
    exact reexportLoop_inv hP (fun dep _ _ h => searchImage_inv hP name includeLocals dep h) _ _ _ h
  · exact h

theorem resolveInPreferred_inv (preferred : Nat) (h : P st) : P (resolveInPreferred W name includeLocals preferred st).2 := by
  have hdirect := umbrellaShortcut_inv hP name includeLocals preferred h
  unfold resolveInPreferred resolveSymbolFromImageGraph
  dsimp only
  split
  · exact hdirect
  · have hgraph := graphInternal_inv hP name includeLocals graphLevels preferred [] hdirect
    split <;> exact hgraph

theorem resolveFlatNamespaceSymbol_inv (weakAddr : UInt64) (h : P st) :
    P (resolveFlatNamespaceSymbol name includeLocals weakAddr st).2 := withIndex_inv hP _ h

theorem resolveSymbol_inv (ordinal : Int) (includeLocals : Bool) (importer : Option Nat)
    (h : P st) : P (resolveSymbol W name ordinal includeLocals importer st).2 := by
  have hflat := resolveFlatNamespaceSymbol_inv hP (symbolName name) includeLocals 0 h
  unfold resolveSymbol
  dsimp only
  repeat' split
  any_goals exact h
  any_goals exact hflat
  · rename_i i _ _ st1 heq
    have hord := findOrdinalImage_inv hP i ordinal h
    rw [heq] at hord
    exact hord
  · rename_i i _ _ preferred st1 heq
    have hord := findOrdinalImage_inv hP i ordinal h
    rw [heq] at hord
    exact resolveInPreferred_inv hP _ includeLocals preferred hord

end Invariants

/-! ## What an image offers -/

def Sym.offer (s : Sym) : Offer UInt64 :=
  if s.addr = 0 then .none else if s.isWeak then .weak s.addr else .strong s.addr

def symOf : Offer UInt64 → Sym
  | .none => ⟨0, false⟩
  | .weak a => ⟨a, true⟩
  | .strong a => ⟨a, false⟩

/-- A loop's offer so far: it has a weak address, or nothing. -/
def weakOffer (weakAddr : UInt64) : Offer UInt64 := if weakAddr = 0 then .none else .weak weakAddr

theorem Sym.strong_eq (s : Sym) : s.strong = s.offer.isStrong := by
  unfold Sym.strong Sym.offer
  by_cases ha : s.addr = 0 <;> cases s.isWeak <;> simp [ha, Offer.isStrong]

theorem Sym.offer_of_strong (h : s.strong = true) : s.offer = .strong s.addr := by
  unfold Sym.strong at h
  unfold Sym.offer
  simp only [Bool.and_eq_true, bne_iff_ne, Bool.not_eq_true'] at h
  rw [if_neg h.1, h.2]
  rfl

theorem weakOffer_not_strong : (weakOffer weakAddr).isStrong = false := by
  unfold weakOffer
  split <;> rfl

theorem weakOffer_nextWeak (h : s.strong = false) : weakOffer (nextWeak weakAddr s) = (weakOffer weakAddr).orElse s.offer := by
  rw [Sym.strong_eq] at h
  unfold nextWeak weakOffer Sym.offer at *
  by_cases ha : s.addr = 0 <;> by_cases hw : weakAddr = 0 <;> cases hs : s.isWeak <;>
    simp_all [Offer.orElse, Offer.isStrong]

/-- The offer a search enters its loop with. -/
theorem weakOffer_start (h : s.strong = false) : weakOffer (if s.isWeak then s.addr else 0) = s.offer := by
  unfold Sym.strong at h
  unfold weakOffer Sym.offer
  by_cases ha : s.addr = 0 <;> cases hs : s.isWeak <;> simp_all

theorem symOf_weakOffer : (⟨weakAddr, weakAddr != 0⟩ : Sym) = symOf (weakOffer weakAddr) := by
  unfold weakOffer
  by_cases h : weakAddr = 0 <;> simp [h, symOf]

theorem offer_weakOffer : (symOf (weakOffer weakAddr)).offer = weakOffer weakAddr := by
  unfold weakOffer
  by_cases h : weakAddr = 0 <;> simp [h, symOf, Sym.offer]

theorem offer_symOf_strong (h : s.strong = true) : (⟨s.addr, false⟩ : Sym) = symOf s.offer ∧
    (⟨s.addr, false⟩ : Sym).offer = s.offer := by
  have hs := Sym.offer_of_strong h
  have hne : s.addr ≠ 0 := by
    intro h0
    simp [Sym.strong, h0] at h
  rw [hs]
  exact ⟨rfl, by simp [Sym.offer, hne]⟩

/-- Re-export edges as indices of the table. -/
def edges (imgs : List LoadedImage) (i : Nat) : List Nat := (reexportsOf imgs i).filterMap (findLoadedImageByPath imgs)

/-- What the trie of image `i` answers on this table. -/
def trieSym (W : World) (imgs : List LoadedImage) (name : CStr) (i : Nat) : Sym :=
  (findExportTrieSymbolInImage W i name (.ofImages imgs)).1

/-- What the table holds under that name for image `i`. -/
def imageSym (W : World) (imgs : List LoadedImage) (name : CStr) (i : Nat) : Sym :=
  let s := (best (defsOf imgs i) name).getD ⟨0, false⟩
  if s.addr = 0 ∧ shouldSearchExportTrieForImage imgs i then trieSym W imgs name i else s

def offers (W : World) (imgs : List LoadedImage) (name : CStr) (i : Nat) : Offer UInt64 := (imageSym W imgs name i).offer

/-- A table that no search has to load for: the re-exports are registered, and where
    tries are searched so is every dylib an ordinal can name. -/
structure Closed (imgs : List LoadedImage) : Prop where
  reexported : ∀ img ∈ imgs, ∀ path ∈ reexports img.commands, (findLoadedImageByPath imgs path).isSome
  forwarded : (∃ img ∈ imgs, img.symtab = none) → Linked imgs

/-- A process with this table, its symbol index in order. -/
structure Settled (imgs : List LoadedImage) (st : Proc) : Prop where
  images : st.images = imgs
  index : IndexOk imgs st.index

theorem settled_ofImages (imgs : List LoadedImage) : Settled imgs (.ofImages imgs) := ⟨rfl, indexOk_empty imgs⟩

section Spec

variable {imgs : List LoadedImage} (hc : Closed imgs) (hr : Room imgs) (W : World) (name : CStr)

theorem findLoadedImageByPath_lt {path : CStr} {i : Nat} (h : findLoadedImageByPath imgs path = some i) :
    i < imgs.length := by
  obtain ⟨img, himg, -⟩ := findLoadedImageByPath_some h
  exact (List.getElem?_eq_some_iff.mp himg).1

include hc in
theorem reexportsOf_isSome {i : Nat} {path : CStr} (h : path ∈ reexportsOf imgs i) :
    (findLoadedImageByPath imgs path).isSome := by
  unfold reexportsOf at h
  rcases hi : imgs[i]? with _ | img
  · rw [hi] at h
    cases h
  · rw [hi] at h
    exact hc.reexported img (List.mem_of_getElem? hi) path h

include hc hr in
theorem searchImage_spec {i : Nat} (hi : i < imgs.length) {st : Proc} (hs : Settled imgs st) :
    (searchImage W name false i st).1 = imageSym W imgs name i ∧ Settled imgs (searchImage W name false i st).2 := by
  obtain ⟨rfl, hix⟩ := hs
  obtain ⟨h1, h2⟩ := findSymbolInImage_spec hr hix hi name
  have hset : Settled st.images { st with index := (findSymbolInImage st.images i name false st.index).2 } := ⟨rfl, h2⟩
  unfold searchImage imageSym
  dsimp only
  rw [← h1]
  by_cases htrie : (findSymbolInImage st.images i name false st.index).1.addr = 0 ∧
      shouldSearchExportTrieForImage st.images i = true
  · rw [if_pos ⟨htrie.1, rfl, htrie.2⟩, if_pos htrie]
    have hnone : ∃ img ∈ st.images, img.symtab = none := by
      refine ⟨st.images[i], List.getElem_mem hi, ?_⟩
      simpa [shouldSearchExportTrieForImage, List.getElem?_eq_getElem hi] using htrie.2
    rw [findExportTrieSymbolInImage_linked W (hc.forwarded hnone) hset.images]
    exact ⟨rfl, hset⟩
  · rw [if_neg (fun h => htrie ⟨h.1, h.2.2⟩), if_neg htrie]
    exact ⟨rfl, hset⟩

/-- The stateful search `r` gives what the walk `w` gives. -/
structure Answers {τ : Type} (imgs : List LoadedImage) (r : Sym × τ × Proc) (w : Offer UInt64 × τ) : Prop where
  sym : r.1 = symOf w.1
  offer : r.1.offer = w.1
  kept : r.2.1 = w.2
  settled : Settled imgs r.2.2

theorem reexportLoop_spec {τ : Type} {go : Nat → τ → Proc → Sym × τ × Proc} {wgo : Nat → τ → Offer UInt64 × τ}
    (hgo : ∀ j t {st : Proc}, j < imgs.length → Settled imgs st →
      (go j t st).1.offer = (wgo j t).1 ∧ (go j t st).2.1 = (wgo j t).2 ∧ Settled imgs (go j t st).2.2) :
    ∀ (paths : List CStr) (weakAddr : UInt64) (t : τ) {st : Proc},
      (∀ path ∈ paths, (findLoadedImageByPath imgs path).isSome) → Settled imgs st →
      Answers imgs (reexportLoop W go paths weakAddr t st)
        (walkSuccs wgo (paths.filterMap (findLoadedImageByPath imgs)) (weakOffer weakAddr) t) := by
  intro paths
  induction paths with
  | nil =>
    intro weakAddr t st _ hs
    exact ⟨symOf_weakOffer weakAddr, by rw [reexportLoop, symOf_weakOffer, offer_weakOffer]; rfl, rfl, hs⟩
  | cons path paths ih =>
    intro weakAddr t st hall hs
    have hsome := hall path List.mem_cons_self
    obtain ⟨j, hj⟩ := Option.isSome_iff_exists.mp hsome
    obtain ⟨ho, ht, hset⟩ := hgo j t (findLoadedImageByPath_lt hj) hs
    have hfind : findOrLoad W path st = (some j, st) := by
      rw [findOrLoad_of_isSome W (hs.images ▸ hsome), hs.images, hj]
    rw [List.filterMap_cons_some hj]
    unfold reexportLoop walkSuccs
    simp only [hfind]
    by_cases hstrong : (go j t st).1.strong = true
    · have hw : (wgo j t).1.isStrong = true := by rw [← ho, ← Sym.strong_eq, hstrong]
      obtain ⟨h1, h2⟩ := offer_symOf_strong hstrong
      simp only [hstrong, hw, if_true]
      exact ⟨h1.trans (congrArg symOf ho), h2.trans ho, ht, hset⟩
    · have hweak : (go j t st).1.strong = false := by simpa using hstrong
      have hw : (wgo j t).1.isStrong = false := by rw [← ho, ← Sym.strong_eq, hweak]
      simp only [hweak, hw, Bool.false_eq_true, if_false]
      rw [← ho, ← weakOffer_nextWeak weakAddr hweak, ← ht]
      exact ih _ _ (fun p hp => hall p (List.mem_cons_of_mem _ hp)) hset

include hc hr in
/-- The graph search is the walk over the re-export edges. -/
theorem graph_spec : ∀ (levels : Nat) {i : Nat} (visited : List Nat) {st : Proc}, i < imgs.length → Settled imgs st →
    Answers imgs (resolveSymbolFromImageGraphInternal W name false levels i visited st)
      (walk (edges imgs) (offers W imgs name) levels i visited) := by
  intro levels
  induction levels with
  | zero => intro i visited st _ hs; exact ⟨rfl, rfl, rfl, hs⟩
  | succ levels ih =>
    intro i visited st hi hs
    obtain ⟨h1, h2⟩ := searchImage_spec hc hr W name hi hs
    have ho : (searchImage W name false i st).1.offer = offers W imgs name i := congrArg Sym.offer h1
    unfold resolveSymbolFromImageGraphInternal walk
    by_cases hvis : i ∈ visited
    · simp only [if_pos hvis]
      exact ⟨rfl, rfl, rfl, hs⟩
    · simp only [if_neg hvis]
      by_cases hstrong : (searchImage W name false i st).1.strong = true
      · have hw : (offers W imgs name i).isStrong = true := by rw [← ho, ← Sym.strong_eq, hstrong]
        obtain ⟨h3, h4⟩ := offer_symOf_strong hstrong
        simp only [hstrong, hw, if_true]
        exact ⟨h3.trans (congrArg symOf ho), h4.trans ho, rfl, h2⟩
      · have hweak : (searchImage W name false i st).1.strong = false := by simpa using hstrong
        have hw : (offers W imgs name i).isStrong = false := by rw [← ho, ← Sym.strong_eq, hweak]
        simp only [hweak, hw, Bool.false_eq_true, if_false]
        rw [h2.images, ← ho, ← weakOffer_start hweak]
        refine reexportLoop_spec W (fun j vis st hj hst => ?_) _ _ _ (fun path hp => reexportsOf_isSome hc hp) h2
        have := ih vis hj hst
        exact ⟨this.offer, this.kept, this.settled⟩

/-- The answer is the choice among the images the search meets. -/
theorem graph_answer (hc : Closed imgs) (hr : Room imgs) {i : Nat} (hi : i < imgs.length) (hs : Settled imgs st) :
    (resolveSymbolFromImageGraph W i name false st).1 =
        symOf (pick (offers W imgs name) (dfs (edges imgs) graphLevels i [])) ∧
      (resolveSymbolFromImageGraph W i name false st).1.offer =
        pick (offers W imgs name) (dfs (edges imgs) graphLevels i []) ∧
      Settled imgs (resolveSymbolFromImageGraph W i name false st).2 := by
  have h := graph_spec hc hr W name graphLevels [] hi hs
  have hw : (walk (edges imgs) (offers W imgs name) graphLevels i []).1 = _ := (walk_spec graphLevels i []).1
  refine ⟨h.sym.trans ?_, h.offer.trans ?_, h.settled⟩
  · rw [hw]; rfl
  · rw [hw]; rfl

end Spec

/-! ## Definitions a few edges away -/

/-- Every image has a symbol table, so that no export trie is searched. -/
def Tabled (imgs : List LoadedImage) : Prop := ∀ img ∈ imgs, img.symtab ≠ none

instance (imgs : List LoadedImage) : Decidable (Tabled imgs) := inferInstanceAs (Decidable (∀ img ∈ imgs, _))

/-- The definitions of a name in the symbol table of image `j`. -/
def definitions (imgs : List LoadedImage) (name : CStr) (j : Nat) : Set Sym := {s | (name, s) ∈ defsOf imgs j}

/-- The definitions in images that a path of at most eight re-exports leads to. -/
def nearDefs (imgs : List LoadedImage) (name : CStr) (i : Nat) : Set Sym :=
  {s | ∃ j, Within (edges imgs) 8 i j ∧ s ∈ definitions imgs name j}

/-- `r` is a strong definition of `D` if there is one, else a weak one, else 0. -/
structure Prefers (D : Set Sym) (r : Sym) : Prop where
  strong : (∃ s ∈ D, s.isWeak = false) → r ∈ D ∧ r.isWeak = false
  weak : ¬ (∃ s ∈ D, s.isWeak = false) → D.Nonempty → r ∈ D ∧ r.isWeak = true
  none : D = ∅ → r.addr = 0

theorem imageSym_mem {W : World} {imgs : List LoadedImage} (ht : Tabled imgs) {name : CStr} {j : Nat}
    (h : (imageSym W imgs name j).addr ≠ 0) : imageSym W imgs name j ∈ definitions imgs name j := by
  unfold imageSym at *
  dsimp only at *
  split
  · -- there is no such image
    rename_i hif
    rw [if_pos hif] at h
    have hnone : imgs[j]? = none := by
      by_contra hsome
      obtain ⟨img, himg⟩ := Option.ne_none_iff_exists'.mp hsome
      have hif := hif.2
      rw [shouldSearchExportTrieForImage, himg] at hif
      exact ht img (List.mem_of_getElem? himg) (by simpa using hif)
    exact absurd (by simp [trieSym, findExportTrieSymbolInImage, Proc.ofImages, hnone]) h
  · rename_i hif
    rw [if_neg hif] at h
    rcases hb : best (defsOf imgs j) name with _ | e
    · rw [hb] at h
      exact absurd rfl h
    · exact best_mem hb

theorem symOf_offers_mem {W : World} {imgs : List LoadedImage} (ht : Tabled imgs) {name : CStr} {j : Nat}
    (h : offers W imgs name j = o) (hne : o ≠ .none) : symOf o ∈ definitions imgs name j := by
  unfold offers Sym.offer at h
  have haddr : (imageSym W imgs name j).addr ≠ 0 := by
    intro h0
    rw [if_pos h0] at h
    exact hne h.symm
  have hsym : symOf o = imageSym W imgs name j := by
    rw [if_neg haddr] at h
    rw [← h]
    rcases hs : imageSym W imgs name j with ⟨a, w⟩
    cases w <;> rfl
  rw [hsym]
  exact imageSym_mem ht haddr

/-- When a choice among offers keeps the promise. -/
theorem prefers_symOf_iff {D : Set Sym} (hmem : o ≠ .none → symOf o ∈ D) :
    Prefers D (symOf o) ↔
      ((∃ s ∈ D, s.isWeak = false) → o.isStrong = true ∨ (o = .none ∧ ⟨0, false⟩ ∈ D)) ∧
      (D.Nonempty → (∃ s ∈ D, s.isWeak = false) ∨ o ≠ .none) := by
  cases o with
  | strong a =>
    have hD : symOf (.strong a) ∈ D := hmem (by simp)
    have hs : ∃ s ∈ D, s.isWeak = false := ⟨_, hD, rfl⟩
    refine ⟨fun _ => ⟨fun _ => .inl rfl, fun _ => .inl hs⟩, fun _ => ⟨fun _ => ⟨hD, rfl⟩, fun hn => absurd hs hn, ?_⟩⟩
    intro hempty
    rw [hempty] at hD
    exact absurd hD (Set.notMem_empty _)
  | weak a =>
    have hD : symOf (.weak a) ∈ D := hmem (by simp)
    constructor
    · intro h
      refine ⟨fun hs => ?_, fun _ => .inr (by simp)⟩
      exact absurd (h.strong hs).2 (by simp [symOf])
    · intro h
      refine ⟨fun hs => ?_, fun _ _ => ⟨hD, rfl⟩, ?_⟩
      · rcases h.1 hs with h | h
        · exact absurd h (by simp [Offer.isStrong])
        · exact absurd h.1 (by simp)
      · intro hempty
        rw [hempty] at hD
        exact absurd hD (Set.notMem_empty _)
  | none =>
    constructor
    · intro h
      refine ⟨fun hs => .inr ⟨rfl, (h.strong hs).1⟩, fun hne => ?_⟩
      by_cases hs : ∃ s ∈ D, s.isWeak = false
      · exact .inl hs
      · exact absurd (h.weak hs hne).2 (by simp [symOf])
    · intro h
      refine ⟨fun hs => ?_, fun hn hne => ?_, fun _ => rfl⟩
      · rcases h.1 hs with h | h
        · exact absurd h (by simp [Offer.isStrong])
        · exact ⟨h.2, rfl⟩
      · rcases h.2 hne with h | h
        · exact absurd h hn
        · exact absurd rfl h

section Near

variable {imgs : List LoadedImage} (W : World) (name : CStr)

/-- Whatever the search answers with is a definition at most eight edges away. -/
theorem pick_mem_nearDefs (ht : Tabled imgs) {i : Nat} (h : pick (offers W imgs name) (dfs (edges imgs) graphLevels i []) = o)
    (hne : o ≠ .none) : symOf o ∈ nearDefs imgs name i := by
  obtain ⟨j, hj, hoff⟩ := pick_mem h hne
  rcases dfs_within 8 i [] j hj with hnil | hw
  · cases hnil
  · exact ⟨j, hw, symOf_offers_mem ht hoff hne⟩

end Near

/-- An image at address 0x1000 that re-exports `deps` and has these symbols. -/
def exampleImage (path : String) (deps : List String) (syms : List Nlist) (strtab : CStr) : LoadedImage :=
  ⟨0x1000, 0, cstr path, deps.map fun d => .dylib .reexport (cstr d), some ⟨0, syms, strtab, UInt32.ofNat strtab.length⟩⟩

/-- `s` re-exports `x` and, over seven others, `x` again; `x` re-exports `y`, which
    defines `_f`. -/
def diamond : List LoadedImage :=
  [exampleImage "s" ["a", "x"] [] [], exampleImage "a" ["b"] [] [], exampleImage "b" ["c"] [] [],
    exampleImage "c" ["d"] [] [], exampleImage "d" ["e"] [] [], exampleImage "e" ["f"] [] [],
    exampleImage "f" ["g"] [] [], exampleImage "g" ["x"] [] [], exampleImage "x" ["y"] [] [],
    exampleImage "y" [] [⟨1, 0x0F, 0, 0x4000⟩] ([0] ++ cstr "_f" ++ [0])]

/-- A system without files and without a shared cache. -/
def bareWorld : World := ⟨SharedCache.absent, fun _ => none, fun _ => 0, 0x100, 0x200⟩

theorem diamond_tabled : Tabled diamond := by decide

theorem diamond_closed : Closed diamond where
  reexported := by decide
  forwarded h := by
    obtain ⟨img, himg, hnone⟩ := h
    exact absurd hnone (diamond_tabled img himg)

theorem diamond_room : Room diamond := ⟨by decide, by decide⟩

theorem diamond_defines : (⟨0x4000, false⟩ : Sym) ∈ definitions diamond (cstr "_f") 9 := by
  show _ ∈ defsOf diamond 9
  decide

end Panthera.Dyld
