/-
  Panthera.Dyld.Names — whose address does a resolved symbol get (`resolveSymbol`)?

  A name is looked up by index, by scan, by export trie and along re-exports. What it stands
  for is said without these: a symbol of that name in an image's symbol table
  (`TableSymbol`), or a path of labels in its export trie that spell the name (`Spells`),
  which may go on at a re-export in the dylib that its ordinal names.

  `resolveSymbol` first drops what stands before the first underscore, so the address is
  that of a symbol of the name that is left (`resolveSymbol_named`): `foo_bar` is bound to
  `_bar` (`bound_under_a_shorter_name`).
-/

import Panthera.Dyld.IndexScan
import Panthera.Dyld.Resolve

namespace Panthera.Dyld

open MachO

/-! ## What a name stands for -/

/-- A definition of that name in the image's symbol table, local or external. -/
def TableSymbol (img : LoadedImage) (name : CStr) (a : UInt64) : Prop :=
  ∃ tab ∈ img.symtab, ∃ sym ∈ tab.syms, sym.defined = true ∧ cstrAt tab.strtab sym.strx.toNat = name ∧ sym.value + img.slide = a

/-- A label up to its NUL, and what follows. -/
def splitEdge : List UInt8 → Option (CStr × List UInt8)
  | [] => none
  | b :: p => if b = 0 then some ([], p) else (splitEdge p).map fun (edge, r) => (b :: edge, r)

/-- The children of a node: labels and offsets. -/
def entries : Nat → List UInt8 → List (CStr × UInt64)
  | 0, _ => []
  | n + 1, p =>
    match splitEdge p with
    | none => []
    | some (edge, p) =>
      match readULEB128Bounded p with
      | none => []
      | some (child, p) => (edge, child) :: entries n p

/-- A node's terminal and the bytes behind it. -/
def nodeParts (trie : List UInt8) (off : UInt64) : Option (List UInt8 × List UInt8) := do
  let (size, p) ← readULEB128Bounded (trie.drop off.toNat)
  if p.length < size.toNat then none else some (p.take size.toNat, p.drop size.toNat)

def childrenOf : List UInt8 → List (CStr × UInt64)
  | [] => []
  | count :: p => entries count.toNat p

/-- From the node at `off` the labels spell `rest`, and the export there is at the address
    `a`: of the image itself, or of the symbol that a re-export stands for. -/
inductive Spells (C : SharedCache) (images : List LoadedImage) : Nat → List UInt8 → UInt64 → CStr → CStr → UInt64 → Prop where
  | exported {i : Nat} {img : LoadedImage} {trie terminal after p q : List UInt8} {off flags address : UInt64} {original : CStr}
      (himg : images[i]? = some img) (hnode : nodeParts trie off = some (terminal, after))
      (hflags : readULEB128Bounded terminal = some (flags, p)) (haddress : readULEB128Bounded p = some (address, q))
      (hplain : flags &&& 0x08 = 0) : Spells C images i trie off original [] (img.header + address)
  | edge {i : Nat} {trie terminal after : List UInt8} {off child a : UInt64} {original label rest : CStr}
      (hnode : nodeParts trie off = some (terminal, after)) (hkid : (label, child) ∈ childrenOf after)
      (hrest : Spells C images i trie child original rest a) : Spells C images i trie off original (label ++ rest) a
  | reexported {i dep : Nat} {img : LoadedImage} {trie depTrie terminal after p q : List UInt8} {off flags v a : UInt64}
      {original path : CStr} (hnode : nodeParts trie off = some (terminal, after))
      (hflags : readULEB128Bounded terminal = some (flags, p)) (hordinal : readULEB128Bounded p = some (v, q))
      (hre : flags &&& 0x08 ≠ 0) (hpath : ordinalPath images i (Fixups.toInt v) = some path)
      (hdep : images[dep]? = some img) (hbase : basename img.path = basename path)
      (htrie : exportTrieForImage C img = some depTrie)
      (hname : Spells C images dep depTrie 0 (if q.head?.any (· ≠ 0) then cstrAt (q ++ after) 0 else original)
        (if q.head?.any (· ≠ 0) then cstrAt (q ++ after) 0 else original) a) :
      Spells C images i trie off original [] a

/-- A registered image has a symbol of that name at that address. -/
def HasSymbol (C : SharedCache) (images : List LoadedImage) (name : CStr) (a : UInt64) : Prop :=
  ∃ i img, images[i]? = some img ∧
    (TableSymbol img name a ∨ ∃ trie, exportTrieForImage C img = some trie ∧ Spells C images i trie 0 name name a)

/-! ## The table grows -/

variable {i : Nat} {img : LoadedImage} {a : UInt64} {name : CStr} {st : Proc}

section Grow

variable {C : SharedCache} {images images' : List LoadedImage} (h : images <+: images')
include h

theorem getElem?_mono (hi : images[i]? = some img) : images'[i]? = some img := by
  obtain ⟨more, rfl⟩ := h
  rw [List.getElem?_append_left (List.getElem?_eq_some_iff.mp hi).1, hi]

theorem ordinalPath_mono {ordinal : Int} {path : CStr} (hp : ordinalPath images i ordinal = some path) :
    ordinalPath images' i ordinal = some path := by
  unfold ordinalPath at hp ⊢
  split at hp
  · cases hp
  · rename_i hpos
    obtain ⟨img, himg, hdep⟩ := Option.bind_eq_some_iff.mp hp
    rw [if_neg hpos, Option.bind_eq_some_iff]
    exact ⟨img, getElem?_mono h himg, hdep⟩

theorem Spells.mono {trie : List UInt8} {off : UInt64} {original rest : CStr}
    (hs : Spells C images i trie off original rest a) : Spells C images' i trie off original rest a := by
  induction hs with
  | exported himg hnode hflags haddress hplain => exact .exported (getElem?_mono h himg) hnode hflags haddress hplain
  | edge hnode hkid _ ih => exact .edge hnode hkid ih
  | reexported hnode hflags hordinal hre hpath hdep hbase htrie _ ih =>
    exact .reexported hnode hflags hordinal hre (ordinalPath_mono h hpath) (getElem?_mono h hdep) hbase htrie ih

theorem HasSymbol.mono (hs : HasSymbol C images name a) : HasSymbol C images' name a := by
  obtain ⟨i, img, himg, hsym⟩ := hs
  refine ⟨i, img, getElem?_mono h himg, hsym.imp_right ?_⟩
  rintro ⟨trie, htrie, hspells⟩
  exact ⟨trie, htrie, hspells.mono h⟩

end Grow

/-! ## What a search leaves behind -/

variable (W : World) (path : CStr)

theorem fromCache_index (st : Proc) : (fromCache W path st).2.index = st.index := by
  unfold fromCache
  split
  · rfl
  · unfold useCached
    split
    · rfl
    · split
      · rfl
      · dsimp only
        split <;> rfl

theorem fromFile_index (f : File) (path : CStr) (st : Proc) : (fromFile W f path st).2.index = st.index := by
  unfold fromFile
  dsimp only
  repeat' split
  all_goals rfl

theorem obtainImage_index (st : Proc) : (obtainImage W path st).2.index = st.index := by
  have hc := fromCache_index W path st
  unfold obtainImage
  split
  · rename_i img st1 heq
    rw [heq] at hc
    exact hc
  · rename_i st1 heq
    rw [heq] at hc
    split
    · exact hc
    · rename_i f _
      have hf := fromFile_index W f path st1
      split
      · rename_i img st2 heq2
        rw [heq2] at hf
        exact hf.trans hc
      · rename_i st2 heq2
        rw [heq2] at hf
        exact hf.trans hc

theorem loadStep_index {go : CStr → Proc → Option Nat × Proc} (hgo : ∀ path st, (go path st).2.index = st.index) (W : World)
    (path : CStr) (st : Proc) : (loadStep go W path st).2.index = st.index := by
  have hob := obtainImage_index W path st
  unfold loadStep
  split
  · rfl
  · split
    · rfl
    · split
      · rename_i st1 heq
        rw [heq] at hob
        exact hob
      · rename_i img isFile st1 heq
        rw [heq] at hob
        dsimp only
        split
        · exact loadAll_inv (P := fun st' => st'.index = st.index) (fun path st' h => (hgo path st').trans h) _ hob
        · exact hob

/-- Loading leaves the symbol index alone. -/
theorem loadImage_index : ∀ (n : Nat) (path : CStr) (st : Proc), (loadImage W n path st).2.index = st.index := by
  intro n
  induction n with
  | zero => exact loadStep_index (fun _ _ => rfl) W
  | succ n ih => exact loadStep_index ih W

/-- The table has grown; if the index was in order it still is, and images have been
    indexed behind those that were. -/
structure Moves (st st' : Proc) : Prop where
  grows : st.images <+: st'.images
  tracks : Tracks st.images st.index → Tracks st'.images st'.index ∧ st.index.indexed <+: st'.index.indexed

theorem Moves.refl (st : Proc) : Moves st st := ⟨List.prefix_rfl, fun h => ⟨h, List.prefix_rfl⟩⟩

theorem Moves.trans {a b c : Proc} (h1 : Moves a b) (h2 : Moves b c) : Moves a c where
  grows := h1.grows.trans h2.grows
  tracks h :=
    have hb := h1.tracks h
    have hc := h2.tracks hb.1
    ⟨hc.1, hb.2.trans hc.2⟩

theorem stable_tracks (ix : SymbolIndex) : Stable W fun st => Tracks st.images ix where
  keeps _ _ hk h := hk.images.symm ▸ h
  register _ img hfresh h := h.register img hfresh.room

theorem loadImage_moves (n : Nat) (path : CStr) (st : Proc) : Moves st (loadImage W n path st).2 where
  grows := loadImage_grows W n path st
  tracks h := by
    rw [loadImage_index]
    exact ⟨loadImage_inv (stable_tracks W st.index) n path h, List.prefix_rfl⟩

/-- A dylib that is found or loaded is in the table, under its base name. -/
theorem findOrLoad_moves (st : Proc) : Moves st (findOrLoad W path st).2 ∧
    ∀ i, (findOrLoad W path st).1 = some i → ∃ img, (findOrLoad W path st).2.images[i]? = some img ∧ basename img.path = basename path := by
  unfold findOrLoad
  rcases hb : findLoadedImageByPathBounded st.images path with _ | i
  · dsimp only
    unfold loadDependencyImage loadDependency
    rcases hl : findLoadedImageByPath st.images path with _ | i
    · refine ⟨loadImage_moves W maxImages path st, fun i hi => ?_⟩
      have hreg := loadImage_registers W path st
      dsimp only at hi ⊢
      rw [← Prod.mk.eta (p := loadImage W maxImages path st), hi] at hreg
      exact hreg
    · refine ⟨.refl st, ?_⟩
      rintro _ ⟨⟩
      exact findLoadedImageByPath_some hl
  · refine ⟨.refl st, ?_⟩
    rintro _ ⟨⟩
    obtain ⟨hlt, hp, -⟩ := List.findIdx?_eq_some_iff_getElem.mp hb
    exact ⟨_, List.getElem?_eq_getElem hlt, by rw [beq_iff_eq.mp hp]⟩

/-! ## One image's symbol table -/

theorem scanFrom_named {tab : SymTab} (htab : img.symtab = some tab) {includeLocals : Bool} :
    ∀ {syms : List Nlist} {weakAddr : UInt64}, (∀ sym ∈ syms, sym ∈ tab.syms) → (weakAddr ≠ 0 → TableSymbol img name weakAddr) →
      (scanFrom tab img.slide name includeLocals weakAddr syms).addr ≠ 0 →
      TableSymbol img name (scanFrom tab img.slide name includeLocals weakAddr syms).addr := by
  intro syms
  induction syms with
  | nil =>
    intro weakAddr _ hweak hne
    exact hweak hne
  | cons sym syms ih =>
    intro weakAddr hsub hweak
    have hrest : ∀ x ∈ syms, x ∈ tab.syms := fun x hx => hsub x (List.mem_cons_of_mem _ hx)
    unfold scanFrom
    split
    · rename_i hmatch
      have hself : TableSymbol img name (sym.value + img.slide) :=
        ⟨tab, htab, sym, hsub sym List.mem_cons_self, hmatch.1, hmatch.2.2.2.2, rfl⟩
      split
      · intro _
        exact hself
      · refine ih hrest ?_
        split
        · intro _
          exact hself
        · exact hweak
    · exact ih hrest hweak

theorem externalDefs_named {s : Sym} (h : (name, s) ∈ externalDefs img) : TableSymbol img name s.addr := by
  unfold externalDefs at h
  split at h
  · cases h
  · rename_i tab htab
    obtain ⟨sym, hsym, hdef⟩ := List.mem_filterMap.mp h
    obtain ⟨heq, -, hdefined, -⟩ := externalDef_name hdef
    obtain ⟨rfl, rfl⟩ := Prod.mk.inj heq
    exact ⟨tab, htab, sym, hsym, hdefined, rfl, rfl⟩

theorem findSymbolInImage_named (ht : Tracks st.images st.index)
    (himg : st.images[i]? = some img) (name : CStr) (includeLocals : Bool)
    (hne : (findSymbolInImage st.images i name includeLocals st.index).1.addr ≠ 0) :
    TableSymbol img name (findSymbolInImage st.images i name includeLocals st.index).1.addr := by
  have hscan : ((st.images[i]?.map fun img => scanSymbols img name includeLocals).getD ⟨0, false⟩).addr ≠ 0 →
      TableSymbol img name ((st.images[i]?.map fun img => scanSymbols img name includeLocals).getD ⟨0, false⟩).addr := by
    rw [himg, Option.map_some, Option.getD_some, scanSymbols]
    rcases htab : img.symtab with _ | tab
    · exact fun h => absurd rfl h
    · exact scanFrom_named htab (fun _ h => h) fun h => absurd rfl h
  unfold findSymbolInImage symbolIndexLookup at hne ⊢
  dsimp only at hne ⊢
  split at hne
  · rename_i hlocals
    rw [if_pos hlocals]
    exact hscan hne
  · rename_i hlocals
    rw [if_neg hlocals]
    have hget := (symbolIndexImage_tracks ht (List.getElem?_eq_some_iff.mp himg).1).1.exact i name
    rcases hs : (symbolIndexImage st.images i st.index).get (i, name) with _ | s
    · rw [hs] at hne
      dsimp only at hne ⊢
      split at hne
      · rename_i hfull
        rw [if_pos hfull]
        exact hscan hne
      · exact absurd rfl hne
    · rw [hs] at hget
      have hmem : (name, s) ∈ defsOf st.images i := enteredDefs_isPrefix.subset (best_mem hget.symm)
      rw [defsOf, himg] at hmem
      exact externalDefs_named hmem

theorem findSymbolInImage_moves (st : Proc) (hi : i < st.images.length) (name : CStr) (includeLocals : Bool) :
    Moves st { st with index := (findSymbolInImage st.images i name includeLocals st.index).2 } where
  grows := List.prefix_rfl
  tracks h := by
    cases includeLocals with
    | true => exact ⟨h, List.prefix_rfl⟩
    | false =>
      dsimp only
      rw [findSymbolInImage_index]
      obtain ⟨htracks, hindexed⟩ := symbolIndexImage_tracks h hi
      refine ⟨htracks, ?_⟩
      rw [hindexed, asked]
      split
      · exact List.prefix_rfl
      · exact List.prefix_append _ _

/-! ## One image's trie -/

theorem splitEdge_of_readEdge {edge : CStr} {q : List UInt8} {budget' : Int} : ∀ {p : List UInt8} {budget : Int},
    readEdge budget p = some (edge, q, budget') → splitEdge p = some (edge, q) := by
  intro p
  induction p generalizing edge with
  | nil => intro budget h; cases h
  | cons b p ih =>
    intro budget h
    rw [readEdge] at h
    rw [splitEdge]
    split at h
    · rename_i hb
      cases h
      rw [if_pos hb]
    · rename_i hb
      rw [if_neg hb]
      split at h
      · cases h
      · obtain ⟨⟨edge1, q1, b1⟩, hr, heq⟩ := Option.map_eq_some_iff.mp h
        cases heq
        rw [ih hr]
        rfl

theorem findChild_mem {remaining rest : CStr} {child : UInt64} {budget' : Int} : ∀ {n : Nat} {p : List UInt8} {budget : Int},
    findChild remaining n p budget = some (child, rest, budget') → ∃ label, (label, child) ∈ entries n p ∧ remaining = label ++ rest := by
  intro n
  induction n with
  | zero => intro p budget h; cases h
  | succ n ih =>
    intro p budget h
    rw [findChild] at h
    split at h
    · cases h
    · split at h
      · cases h
      · rename_i edge q budget1 hedge
        rw [entries, splitEdge_of_readEdge hedge]
        split at h
        · cases h
        · rename_i child1 q1 hchild
          simp only [hchild]
          split at h
          · rename_i hpre
            cases h
            obtain ⟨more, hmore⟩ := List.isPrefixOf_iff_prefix.mp hpre
            refine ⟨edge, List.mem_cons_self, ?_⟩
            rw [← hmore, List.drop_left]
          · obtain ⟨label, hmem, heq⟩ := ih h
            exact ⟨label, List.mem_cons_of_mem _ hmem, heq⟩

/-- What a step of the search has read. -/
inductive NodeStep (trie : List UInt8) (off : UInt64) (original remaining : CStr) : TrieStep → Prop where
  | fail : NodeStep trie off original remaining .fail
  | found {terminal after p q : List UInt8} {flags address : UInt64} {isWeak : Bool} (hend : remaining = [])
      (hnode : nodeParts trie off = some (terminal, after)) (hflags : readULEB128Bounded terminal = some (flags, p))
      (haddress : readULEB128Bounded p = some (address, q)) (hplain : flags &&& 0x08 = 0) :
      NodeStep trie off original remaining (.found address isWeak)
  | forward {terminal after p q : List UInt8} {flags v : UInt64} {ordinal : Int} {name : CStr} (hend : remaining = [])
      (hnode : nodeParts trie off = some (terminal, after)) (hflags : readULEB128Bounded terminal = some (flags, p))
      (hv : readULEB128Bounded p = some (v, q)) (hre : flags &&& 0x08 ≠ 0) (hordinal : ordinal = Fixups.toInt v)
      (hname : name = if q.head?.any (· ≠ 0) then cstrAt (q ++ after) 0 else original) :
      NodeStep trie off original remaining (.forward ordinal name)
  | down {terminal after : List UInt8} {label rest : CStr} {child : UInt64} {budget : Int}
      (hnode : nodeParts trie off = some (terminal, after)) (hkid : (label, child) ∈ childrenOf after)
      (hrest : remaining = label ++ rest) : NodeStep trie off original remaining (.down child rest budget)

theorem trieStep_reads (trie : List UInt8) (off : UInt64) (original remaining : CStr) (budget : Int) :
    NodeStep trie off original remaining (trieStep trie off original remaining budget) := by
  unfold trieStep
  split
  · exact .fail
  rcases hsize : readULEB128Bounded (trie.drop off.toNat) with _ | ⟨size, p⟩
  · exact .fail
  dsimp only
  split
  · exact .fail
  rename_i hfit
  have hnode : nodeParts trie off = some (p.take size.toNat, p.drop size.toNat) := by
    simp only [nodeParts, hsize, Option.bind_eq_bind, Option.bind_some]
    rw [if_neg hfit]
  split
  · rename_i hterm
    rw [trieTerminal]
    rcases hflags : readULEB128Bounded (p.take size.toNat) with _ | ⟨flags, p1⟩
    · exact .fail
    dsimp only
    rcases hv : readULEB128Bounded p1 with _ | ⟨v, q⟩
    · exact .fail
    dsimp only
    split
    · rename_i hre
      exact .forward hterm.1 hnode hflags hv hre rfl rfl
    · rename_i hre
      exact .found hterm.1 hnode hflags hv (not_not.mp hre)
  · rcases hafter : p.drop size.toNat with _ | ⟨count, q⟩
    · exact .fail
    dsimp only
    rcases hchild : findChild remaining count.toNat q budget with _ | ⟨child, rest, budget1⟩
    · exact .fail
    obtain ⟨label, hmem, heq⟩ := findChild_mem hchild
    exact .down hnode (by rw [hafter]; exact hmem) heq

/-- A search answers with the address of a symbol of that name, in the table that it leaves,
    and leaves the index in order. -/
structure Finds (W : World) (name : CStr) (st : Proc) (a : UInt64) (st' : Proc) : Prop where
  moves : Moves st st'
  named : Tracks st.images st.index → a ≠ 0 → HasSymbol W.cache st'.images name a

theorem findExportTrieSymbolAtNode_spells (levels : Nat) : ∀ (i : Nat) (trie : List UInt8) (off : UInt64)
    (original remaining : CStr) (budget : Int) {st : Proc}, i < st.images.length →
    Moves st (findExportTrieSymbolAtNode W levels i trie off original remaining budget st).2 ∧
      ((findExportTrieSymbolAtNode W levels i trie off original remaining budget st).1.addr ≠ 0 →
        Spells W.cache (findExportTrieSymbolAtNode W levels i trie off original remaining budget st).2.images i trie off original
          remaining (findExportTrieSymbolAtNode W levels i trie off original remaining budget st).1.addr) := by
  induction levels with
  | zero => intro i trie off original remaining budget st hi; exact ⟨.refl st, fun h => absurd rfl h⟩
  | succ levels ih =>
    intro i trie off original remaining budget st hi
    have hreads := trieStep_reads trie off original remaining (budget - 1)
    rw [findExportTrieSymbolAtNode]
    split
    · exact ⟨.refl st, fun h => absurd rfl h⟩
    generalize trieStep trie off original remaining (budget - 1) = step at hreads ⊢
    cases hreads with
    | fail => exact ⟨.refl st, fun h => absurd rfl h⟩
    | found hend hnode hflags haddress hplain =>
      subst hend
      refine ⟨.refl st, fun _ => ?_⟩
      have himg := List.getElem?_eq_getElem hi
      dsimp only
      rw [himg]
      exact .exported himg hnode hflags haddress hplain
    | @down terminal after label rest child budget1 hnode hkid hrest =>
      subst hrest
      obtain ⟨hmoves, hspells⟩ := ih i trie child original rest budget1 hi
      exact ⟨hmoves, fun hne => .edge hnode hkid (hspells hne)⟩
    | @forward terminal after p q flags v ordinal name hend hnode hflags hv hre hordinal hname =>
      subst hend
      dsimp only
      unfold findOrdinalImage
      rcases hpath : ordinalPath st.images i ordinal with _ | path
      · exact ⟨.refl st, fun h => absurd rfl h⟩
      dsimp only
      obtain ⟨hmoves, hfound⟩ := findOrLoad_moves W path st
      rcases hload : findOrLoad W path st with ⟨_ | dep, st1⟩
      · rw [hload] at hmoves
        exact ⟨hmoves, fun h => absurd rfl h⟩
      rw [hload] at hmoves hfound
      obtain ⟨img, himg, hbase⟩ := hfound dep rfl
      dsimp only at himg hmoves ⊢
      rw [himg, Option.bind_some]
      rcases htrie : exportTrieForImage W.cache img with _ | depTrie
      · exact ⟨hmoves, fun h => absurd rfl h⟩
      obtain ⟨hmoves', hspells⟩ := ih dep depTrie 0 name name (budget - 1) (List.getElem?_eq_some_iff.mp himg).1
      refine ⟨hmoves.trans hmoves', fun hne => ?_⟩
      rw [hordinal] at hpath
      refine .reexported hnode hflags hv hre (ordinalPath_mono (hmoves.grows.trans hmoves'.grows) hpath)
        (getElem?_mono hmoves'.grows himg) hbase htrie ?_
      rw [← hname]
      exact hspells hne

theorem findExportTrieSymbolInImage_finds (name : CStr) (hi : i < st.images.length) :
    Finds W name st (findExportTrieSymbolInImage W i name st).1.addr (findExportTrieSymbolInImage W i name st).2 := by
  have himg := List.getElem?_eq_getElem hi
  unfold findExportTrieSymbolInImage
  rw [himg, Option.bind_some]
  rcases htrie : exportTrieForImage W.cache st.images[i] with _ | trie
  · exact ⟨.refl st, fun _ h => absurd rfl h⟩
  dsimp only
  generalize trieLevels = levels
  obtain ⟨hmoves, hspells⟩ := findExportTrieSymbolAtNode_spells W levels i trie 0 name name (trieBudget trie.length) hi
  exact ⟨hmoves, fun _ hne => ⟨i, _, getElem?_mono hmoves.grows himg, .inr ⟨trie, htrie, hspells hne⟩⟩⟩

/-! ## The searches -/

section Searches

variable (W : World) (name : CStr) (includeLocals : Bool)

variable {st' : Proc}

theorem Finds.nothing {W : World} {name : CStr} (h : Moves st st') : Finds W name st 0 st' :=
  ⟨h, fun _ hne => absurd rfl hne⟩

theorem Finds.after {W : World} {name : CStr} {st1 : Proc} (h1 : Moves st st1) (h2 : Finds W name st1 a st') :
    Finds W name st a st' :=
  ⟨h1.trans h2.moves, fun ht => h2.named (h1.tracks ht).1⟩

/-- An address found earlier is still one of that name. -/
theorem Finds.later {W : World} {name : CStr} {st1 : Proc} (h1 : Finds W name st a st1) (h2 : Moves st1 st') :
    Finds W name st a st' :=
  ⟨h1.moves.trans h2, fun ht hne => (h1.named ht hne).mono h2.grows⟩

theorem searchImage_finds (hi : i < st.images.length) :
    Finds W name st (searchImage W name includeLocals i st).1.addr (searchImage W name includeLocals i st).2 := by
  have himg := List.getElem?_eq_getElem hi
  have hmoves := findSymbolInImage_moves st hi name includeLocals
  unfold searchImage
  dsimp only
  split
  · exact .after hmoves (findExportTrieSymbolInImage_finds W name hi)
  · exact ⟨hmoves, fun ht hne => ⟨i, _, himg, .inl (findSymbolInImage_named ht himg name includeLocals hne)⟩⟩

variable {W name}

theorem reexportLoop_finds {τ : Type} {go : Nat → τ → Proc → Sym × τ × Proc}
    (hgo : ∀ dep t {st : Proc}, dep < st.images.length → Finds W name st (go dep t st).1.addr (go dep t st).2.2) :
    ∀ (paths : List CStr) (weakAddr : UInt64) (t : τ) {st0 st : Proc}, Finds W name st0 weakAddr st →
      Finds W name st0 (reexportLoop W go paths weakAddr t st).1.addr (reexportLoop W go paths weakAddr t st).2.2 := by
  intro paths
  induction paths with
  | nil => intro weakAddr t st0 st h; exact h
  | cons path paths ih =>
    intro weakAddr t st0 st h
    obtain ⟨hmoves, hfound⟩ := findOrLoad_moves W path st
    unfold reexportLoop
    rcases hload : findOrLoad W path st with ⟨_ | dep, st1⟩
    · rw [hload] at hmoves
      exact ih _ _ (h.later hmoves)
    rw [hload] at hmoves hfound
    obtain ⟨img, himg, -⟩ := hfound dep rfl
    have hdep := hgo dep t (List.getElem?_eq_some_iff.mp himg).1
    dsimp only
    split
    · exact .after (h.moves.trans hmoves) hdep
    · refine ih _ _ ?_
      unfold nextWeak
      split
      · exact .after (h.moves.trans hmoves) hdep
      · exact h.later (hmoves.trans hdep.moves)

theorem graphInternal_finds : ∀ (levels i : Nat) (visited : List Nat) {st : Proc}, i < st.images.length →
    Finds W name st (resolveSymbolFromImageGraphInternal W name includeLocals levels i visited st).1.addr
      (resolveSymbolFromImageGraphInternal W name includeLocals levels i visited st).2.2 := by
  intro levels
  induction levels with
  | zero => intro i visited st _; exact .nothing (.refl st)
  | succ levels ih =>
    intro i visited st hi
    have hself := searchImage_finds W name includeLocals hi
    unfold resolveSymbolFromImageGraphInternal
    split
    · exact .nothing (.refl st)
    dsimp only
    split
    · exact hself
    · refine reexportLoop_finds (fun dep t _ hdep => ih dep t hdep) _ _ _ ?_
      split
      · exact hself
      · exact .nothing hself.moves

theorem umbrellaShortcut_finds (preferred : Nat) (st : Proc) :
    Finds W name st (umbrellaShortcut W name includeLocals preferred st).1.addr (umbrellaShortcut W name includeLocals preferred st).2 := by
  unfold umbrellaShortcut resolveDirectReexportSymbol
  split
  · exact reexportLoop_finds
      (fun dep _ _ hdep => searchImage_finds W name includeLocals hdep) _ _ _ (.nothing (.refl st))
  · exact .nothing (.refl st)

theorem resolveInPreferred_finds {preferred : Nat} (hp : preferred < st.images.length) :
    Finds W name st (resolveInPreferred W name includeLocals preferred st).1 (resolveInPreferred W name includeLocals preferred st).2 := by
  have hdirect := @umbrellaShortcut_finds W name includeLocals preferred st
  unfold resolveInPreferred resolveSymbolFromImageGraph
  dsimp only
  split
  · exact hdirect
  · have hgraph := @graphInternal_finds W name includeLocals graphLevels preferred []
      (umbrellaShortcut W name includeLocals preferred st).2 (Nat.lt_of_lt_of_le hp hdirect.moves.grows.length_le)
    split
    · exact .after hdirect.moves hgraph
    · dsimp only
      split
      · exact hdirect.later hgraph.moves
      · exact .after hdirect.moves hgraph

theorem flatLoop_finds : ∀ (is : List Nat) (weakAddr : UInt64) {st0 st : Proc}, (∀ i ∈ is, i < st.images.length) →
    Finds W name st0 weakAddr st → Finds W name st0 (flatLoop st.images name includeLocals is weakAddr st.index).1
      { st with index := (flatLoop st.images name includeLocals is weakAddr st.index).2 } := by
  intro is
  induction is with
  | nil => intro weakAddr st0 st _ h; exact h
  | cons i is ih =>
    intro weakAddr st0 st his h
    have hi := his i List.mem_cons_self
    have himg := List.getElem?_eq_getElem hi
    have hmoves := findSymbolInImage_moves st hi name includeLocals
    have hfind : Finds W name st (findSymbolInImage st.images i name includeLocals st.index).1.addr
        { st with index := (findSymbolInImage st.images i name includeLocals st.index).2 } :=
      ⟨hmoves, fun ht hne => ⟨i, _, himg, .inl (findSymbolInImage_named ht himg name includeLocals hne)⟩⟩
    unfold flatLoop
    dsimp only
    split
    · exact .after h.moves hfind
    · refine @ih _ st0 { st with index := (findSymbolInImage st.images i name includeLocals st.index).2 }
        (fun j hj => his j (List.mem_cons_of_mem _ hj)) ?_
      unfold nextWeak
      split
      · exact .after h.moves hfind
      · exact h.later hmoves

theorem resolveFlatNamespaceSymbol_finds (st : Proc) :
    Finds W name st (resolveFlatNamespaceSymbol name includeLocals 0 st).1 (resolveFlatNamespaceSymbol name includeLocals 0 st).2 :=
  flatLoop_finds includeLocals _ 0 (fun _ hi => List.mem_range.mp hi) (.nothing (.refl st))

end Searches

/-- The names that dyld answers itself. -/
def shimNames : List CStr := [cstr "_ttyname", cstr "_ttyname_r", cstr "_ttyname_r$UNIX2003"]

theorem resolveSymbol_finds {n : CStr} (hn : symbolName n ∉ shimNames) (ordinal : Int) (includeLocals : Bool)
    (importer : Option Nat) (st : Proc) : Finds W (symbolName n) st (resolveSymbol W n ordinal includeLocals importer st).1
      (resolveSymbol W n ordinal includeLocals importer st).2 := by
  simp only [shimNames, List.mem_cons, List.not_mem_nil, or_false, not_or] at hn
  have hflat := @resolveFlatNamespaceSymbol_finds W (symbolName n) includeLocals st
  unfold resolveSymbol
  dsimp only
  rw [if_neg hn.1, if_neg (by rintro (h | h); exacts [hn.2.1 h, hn.2.2 h])]
  split
  · exact hflat
  split
  · exact .nothing (.refl st)
  cases importer with
  | none => exact hflat
  | some i =>
    dsimp only
    split
    · unfold findOrdinalImage
      rcases ordinalPath st.images i ordinal with _ | path
      · exact .nothing (.refl st)
      obtain ⟨hmoves, hfound⟩ := findOrLoad_moves W path st
      dsimp only
      rcases hload : findOrLoad W path st with ⟨_ | preferred, st1⟩
      · rw [hload] at hmoves
        exact .nothing hmoves
      · rw [hload] at hmoves hfound
        obtain ⟨img, himg, -⟩ := hfound preferred rfl
        exact .after hmoves (resolveInPreferred_finds includeLocals (List.getElem?_eq_some_iff.mp himg).1)
    · exact hflat

/-- A resolved address is that of a symbol of the name that is left, in a registered image. -/
theorem resolveSymbol_named (W : World) {n : CStr} (hn : symbolName n ∉ shimNames) (ordinal : Int) (includeLocals : Bool)
    (importer : Option Nat) {st : Proc} (ht : Tracks st.images st.index)
    (hne : (resolveSymbol W n ordinal includeLocals importer st).1 ≠ 0) :
    HasSymbol W.cache (resolveSymbol W n ordinal includeLocals importer st).2.images (symbolName n)
      (resolveSymbol W n ordinal includeLocals importer st).1 :=
  (resolveSymbol_finds W hn ordinal includeLocals importer st).named ht hne

/-- An image that defines `_bar` and nothing else. -/
def barImage : LoadedImage := exampleImage "/usr/lib/libbar.dylib" [] [⟨1, 0x0F, 0, 0x4000⟩] ([0] ++ cstr "_bar" ++ [0])

theorem resolveSymbol_named_bar : HasSymbol bareWorld.cache [barImage] (cstr "_bar") 0x4000 := by
  have hres : (resolveSymbol bareWorld (cstr "_bar") (-2) false (some 0) (.ofImages [barImage])).1 = 0x4000 := by decide
  have hsym := @resolveSymbol_named bareWorld (cstr "_bar") (by decide) (-2) false (some 0) (.ofImages [barImage])
    (tracks_empty.register barImage (by decide)) (by rw [hres]; decide)
  rw [hres] at hsym
  exact hsym

/-- Asked for `foo_bar`, dyld answers with the address of `_bar`. -/
theorem bound_under_a_shorter_name :
    (resolveSymbol bareWorld (cstr "foo_bar") (-2) false (some 0) (.ofImages [barImage])).1 = 0x4000 ∧
      ∀ a, ¬ HasSymbol bareWorld.cache [barImage] (cstr "foo_bar") a := by
  refine ⟨by decide, ?_⟩
  rintro a ⟨i, img, himg, hsym⟩
  obtain rfl : img = barImage := List.mem_singleton.mp (List.mem_of_getElem? himg)
  rcases hsym with ⟨tab, htab, sym, hsym, -, hname, -⟩ | ⟨trie, htrie, -⟩
  · have hall : ∀ tab ∈ barImage.symtab, ∀ sym ∈ tab.syms, cstrAt tab.strtab sym.strx.toNat ≠ cstr "foo_bar" := by decide
    exact hall tab htab sym hsym hname
  · cases htrie

end Panthera.Dyld
