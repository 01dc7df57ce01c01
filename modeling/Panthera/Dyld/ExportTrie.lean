/-
  Panthera.Dyld.ExportTrie — the k-th dylib of an image and the search of export tries
  (`findOrdinalImage`, `exportTrieForImage`, `findExportTrieSymbolInImage`).

  A trie search goes down one node a call and, at a re-exported symbol, on to the trie
  of another image, which it may have to load. A search visits at most 33 nodes and has
  a budget of steps besides; every way it gives up returns 0.

  Proved: what the loader keeps, these lookups keep (`findExportTrieSymbolInImage_inv`),
  and on a table where every dylib an image names is registered they load nothing and
  answer from the table alone (`findExportTrieSymbolInImage_linked`).
-/

import Panthera.Fixups.Opcodes
import Panthera.Dyld.Load

namespace Panthera.Dyld

open MachO

/-! ## Images by ordinal -/

def findOrLoad (W : World) (path : CStr) (st : Proc) : Option Nat × Proc :=
  match findLoadedImageByPathBounded st.images path with
  | some i => (some i, st)
  | none => loadDependencyImage W path st

/-- The path the `ordinal`-th dylib command names, counting from 1. -/
def ordinalPath (images : List LoadedImage) (importer : Nat) (ordinal : Int) : Option CStr :=
  if ordinal ≤ 0 then none
  else images[importer]?.bind fun img => (dependencies img.commands)[ordinal.toNat - 1]?

def findOrdinalImage (W : World) (importer : Nat) (ordinal : Int) (st : Proc) : Option Nat × Proc :=
  match ordinalPath st.images importer ordinal with
  | none => (none, st)
  | some path => findOrLoad W path st

/-! ## Tries -/

/-- At most ten bytes: an eleventh would shift past the word. -/
def ulebBoundedFrom (result : UInt64) (shift : Nat) : List UInt8 → Option (UInt64 × List UInt8)
  | [] => none
  | b :: p =>
    let result := result ||| ((b &&& 0x7F).toUInt64 <<< UInt64.ofNat shift)
    if b &&& 0x80 = 0 then some (result, p)
    else if 64 ≤ shift + 7 then none
    else ulebBoundedFrom result (shift + 7) p

def readULEB128Bounded : List UInt8 → Option (UInt64 × List UInt8) := ulebBoundedFrom 0 0

/-- The trie of the first command that has one, if it lies in `__LINKEDIT`. -/
def exportTrieForImage (C : SharedCache) (img : LoadedImage) : Option (List UInt8) :=
  match findSegment img.commands segText, findSegment img.commands segLinkedit with
  | some textSeg, some linkSeg =>
    if linkeditBaseForImage C img.header textSeg linkSeg = 0 then none
    else
      let inLinkedit (off size : UInt64) : Bool :=
        !(off < linkSeg.fileoff || linkSeg.fileoff + linkSeg.filesize < off + size)
      match img.commands.filterMap (fun
        | .exportsTrie ld => if ld.datasize = 0 then none else some (ld.dataoff, ld.bytes.take ld.datasize.toNat)
        | .dyldInfo info => if info.exportTrie = [] then none else some (info.exportOff, info.exportTrie)
        | _ => none) with
      | [] => none
      | (off, trie) :: _ => if inLinkedit off.toUInt64 (UInt64.ofNat trie.length) then some trie else none
  | _, _ => none

/-- The loop over an edge's label; every byte of it costs a step. -/
def readEdge : Int → List UInt8 → Option (CStr × List UInt8 × Int)
  | _, [] => none
  | budget, b :: p =>
    if b = 0 then some ([], p, budget)
    else if budget - 1 ≤ 0 then none
    else (readEdge (budget - 1) p).map fun (edge, r) => (b :: edge, r)

/-- The loop over a node's children: the first whose label the name goes on with, as
    its offset, the name behind the label and the budget left. -/
def findChild (remaining : CStr) : Nat → List UInt8 → Int → Option (UInt64 × CStr × Int)
  | 0, _, _ => none
  | n + 1, p, budget =>
    if p = [] ∨ budget - 1 ≤ 0 then none
    else
      match readEdge (budget - 1) p with
      | none => none
      | some (edge, p, budget) =>
        match readULEB128Bounded p with
        | none => none
        | some (childOffset, p) =>
          if edge.isPrefixOf remaining then some (childOffset, remaining.drop edge.length, budget)
          else findChild remaining n p budget

/-- What a node says about the name that ends or goes on there. -/
inductive TrieStep where
  | fail
  | found (address : UInt64) (isWeak : Bool)
  | forward (ordinal : Int) (importName : CStr)
  | down (offset : UInt64) (remaining : CStr) (budget : Int)

def trieTerminal (terminal after : List UInt8) (originalName : CStr) : TrieStep :=
  match readULEB128Bounded terminal with
  | none => .fail
  | some (flags, p) =>
    match readULEB128Bounded p with
    | none => .fail
    | some (v, p) =>
      if flags &&& 0x08 ≠ 0 then
        -- the import name runs up to its NUL, past the terminal's end if need be
        .forward (Fixups.toInt v) (if p.head?.any (· ≠ 0) then cstrAt (p ++ after) 0 else originalName)
      else .found v (flags &&& 0x04 != 0)

def trieStep (trie : List UInt8) (nodeOffset : UInt64) (originalName remaining : CStr) (budget : Int) : TrieStep :=
  if trie.length ≤ nodeOffset.toNat then .fail
  else
    match readULEB128Bounded (trie.drop nodeOffset.toNat) with
    | none => .fail
    | some (terminalSize, p) =>
      if p.length < terminalSize.toNat then .fail
      else if remaining = [] ∧ 0 < terminalSize then
        trieTerminal (p.take terminalSize.toNat) (p.drop terminalSize.toNat) originalName
      else
        match p.drop terminalSize.toNat with
        | [] => .fail
        | childCount :: p =>
          match findChild remaining childCount.toNat p budget with
          | none => .fail
          | some (off, rest, budget) => .down off rest budget

/-- `findExportTrieSymbolAtNode` with `33 - depth` levels left. The weak flag of a
    search that returns 0 is never read and is left clear. -/
def findExportTrieSymbolAtNode (W : World) : Nat → Nat → List UInt8 → UInt64 → CStr → CStr → Int → Proc → Sym × Proc
  | 0, _, _, _, _, _, _, st => (⟨0, false⟩, st)
  | levels + 1, i, trie, nodeOffset, originalName, remaining, budget, st =>
    if budget - 1 ≤ 0 then (⟨0, false⟩, st)
    else
      match trieStep trie nodeOffset originalName remaining (budget - 1) with
      | .fail => (⟨0, false⟩, st)
      | .found address isWeak => (⟨(st.images[i]?.map (·.header)).getD 0 + address, isWeak⟩, st)
      | .down off rest budget => findExportTrieSymbolAtNode W levels i trie off originalName rest budget st
      | .forward ordinal importName =>
        match findOrdinalImage W i ordinal st with
        | (none, st) => (⟨0, false⟩, st)
        | (some dep, st) =>
          match st.images[dep]?.bind (exportTrieForImage W.cache) with
          | none => (⟨0, false⟩, st)
          | some depTrie => findExportTrieSymbolAtNode W levels dep depTrie 0 importName importName (budget - 1) st

/-- Depths 0 to 32. -/
def trieLevels : Nat := 33

def trieBudget (trieSize : Nat) : Int := if 16000 < trieSize then 65536 else trieSize * 4 + 1024

def findExportTrieSymbolInImage (W : World) (i : Nat) (name : CStr) (st : Proc) : Sym × Proc :=
  match st.images[i]?.bind (exportTrieForImage W.cache) with
  | none => (⟨0, false⟩, st)
  | some trie => findExportTrieSymbolAtNode W trieLevels i trie 0 name name (trieBudget trie.length) st

/-! ## Invariants -/

variable {st : Proc}

section Invariants

variable {W : World} {P : Proc → Prop} (hP : Invariant W P)
include hP

theorem findOrLoad_inv (path : CStr) (h : P st) : P (findOrLoad W path st).2 := by
  unfold findOrLoad
  split
  · exact h
  · exact loadDependencyImage_inv hP path h

theorem findOrdinalImage_inv (importer : Nat) (ordinal : Int) (h : P st) : P (findOrdinalImage W importer ordinal st).2 := by
  unfold findOrdinalImage
  split
  · exact h
  · exact findOrLoad_inv hP _ h

theorem findExportTrieSymbolAtNode_inv : ∀ (levels i : Nat) (trie : List UInt8) (off : UInt64) (name rest : CStr)
    (budget : Int) {st : Proc}, P st → P (findExportTrieSymbolAtNode W levels i trie off name rest budget st).2 := by
  intro levels
  induction levels with
  | zero => intro i trie off name rest budget st h; exact h
  | succ levels ih =>
    intro i trie off name rest budget st h
    unfold findExportTrieSymbolAtNode
    split
    · exact h
    · split
      · exact h
      · exact h
      · exact ih _ _ _ _ _ _ h
      · rename_i ordinal importName _
        have hord := findOrdinalImage_inv hP i ordinal h
        split
        · rename_i st1 heq
          rw [heq] at hord
          exact hord
        · rename_i dep st1 heq
          rw [heq] at hord
          split
          · exact hord
          · exact ih _ _ _ _ _ _ hord

theorem findExportTrieSymbolInImage_inv (i : Nat) (name : CStr) (h : P st) : P (findExportTrieSymbolInImage W i name st).2 := by
  unfold findExportTrieSymbolInImage
  split
  · exact h
  · rename_i trie _
    exact findExportTrieSymbolAtNode_inv hP trieLevels i trie 0 name name (trieBudget trie.length) h

end Invariants

/-! ## Tables that need no loading -/

/-- Every dylib that a registered image names is registered. -/
def Linked (imgs : List LoadedImage) : Prop :=
  ∀ img ∈ imgs, ∀ path ∈ dependencies img.commands, (findLoadedImageByPath imgs path).isSome

/-- The process with this table and nothing else done yet. -/
def Proc.ofImages (imgs : List LoadedImage) : Proc := ⟨imgs, SymbolIndex.empty, fun _ => 0, 0, []⟩

variable (W : World)

/-- A path the table has is found without loading; both searches by path agree on it. -/
theorem findOrLoad_of_isSome {path : CStr} (h : (findLoadedImageByPath st.images path).isSome) :
    findOrLoad W path st = (findLoadedImageByPath st.images path, st) := by
  unfold findOrLoad findLoadedImageByPathBounded
  split
  · rename_i i heq
    rw [findLoadedImageByPath, heq]
  · obtain ⟨i, hi⟩ := Option.isSome_iff_exists.mp h
    rw [loadDependencyImage, loadDependency, hi]

theorem findOrdinalImage_linked (hl : Linked st.images) (importer : Nat) (ordinal : Int) :
    findOrdinalImage W importer ordinal st =
      ((ordinalPath st.images importer ordinal).bind (findLoadedImageByPath st.images), st) := by
  unfold findOrdinalImage
  rcases hp : ordinalPath st.images importer ordinal with _ | path
  · rfl
  · refine findOrLoad_of_isSome W ?_
    unfold ordinalPath at hp
    split at hp
    · cases hp
    · obtain ⟨img, himg, hpath⟩ := Option.bind_eq_some_iff.mp hp
      exact hl img (List.mem_of_getElem? himg) path (List.mem_of_getElem? hpath)

theorem findExportTrieSymbolAtNode_linked {imgs : List LoadedImage} (hl : Linked imgs) :
    ∀ (levels i : Nat) (trie : List UInt8) (off : UInt64) (name rest : CStr) (budget : Int) {st : Proc},
      st.images = imgs → findExportTrieSymbolAtNode W levels i trie off name rest budget st =
        ((findExportTrieSymbolAtNode W levels i trie off name rest budget (.ofImages imgs)).1, st) := by
  intro levels
  induction levels with
  | zero => intros; rfl
  | succ levels ih =>
    intro i trie off name rest budget st hst
    have himgs : (Proc.ofImages imgs).images = imgs := rfl
    have hl0 : Linked (Proc.ofImages imgs).images := hl
    unfold findExportTrieSymbolAtNode
    by_cases hb : budget - 1 ≤ 0
    · simp only [if_pos hb]
    · simp only [if_neg hb]
      rcases trieStep trie off name rest (budget - 1) with _ | _ | ⟨ordinal, importName⟩ | _
      · rfl
      · simp only [hst, himgs]
      · simp only [findOrdinalImage_linked W (hst ▸ hl), findOrdinalImage_linked W hl0, hst, himgs]
        rcases (ordinalPath imgs i ordinal).bind (findLoadedImageByPath imgs) with _ | dep
        · rfl
        · dsimp only
          rw [hst, himgs]
          rcases imgs[dep]?.bind (exportTrieForImage W.cache) with _ | depTrie
          · rfl
          · exact ih _ _ _ _ _ _ hst
      · exact ih _ _ _ _ _ _ hst

theorem findExportTrieSymbolInImage_linked {imgs : List LoadedImage} (hl : Linked imgs)
    (hst : st.images = imgs) (i : Nat) (name : CStr) :
    findExportTrieSymbolInImage W i name st = ((findExportTrieSymbolInImage W i name (.ofImages imgs)).1, st) := by
  have himgs : (Proc.ofImages imgs).images = imgs := rfl
  unfold findExportTrieSymbolInImage
  rw [himgs, hst]
  split
  · rfl
  · rename_i trie _
    exact findExportTrieSymbolAtNode_linked W hl trieLevels i trie 0 name name (trieBudget trie.length) hst

end Panthera.Dyld
