/-
  Panthera.Cache.Resolve — the builder's symbol resolution (`find_symbol_in_dylib`,
  `resolve_symbol`) and what the built cache shows dyld of a dylib
  (`rewrite_load_commands`, `adjust_symtab_values`, `write_metadata`).

  The builder takes the first external definition it meets, weak or not, in a
  depth-first search of the re-exports that keeps no marks; on a cyclic graph it would
  not return (`none`). It reads the original files and relocates a symbol by the first
  segment that contains its value, or else as if it were in `__TEXT`; the symbol tables
  in the cache are adjusted the same way, but a value of 0 or outside every segment is
  left as it is.
-/

import Panthera.Lib.Walk
import Panthera.Cache.Layout
import Panthera.Dyld.Image

namespace Panthera.Cache

open MachO Lib.Walk

/-! ## Dylibs by name -/

/-- `strrchr(path, '/') ?: ""`: two paths without a slash are the same to it. -/
def lastComponent (path : CStr) : CStr := if slash ∈ path then slash :: basename path else []

def sameDylib (d : DylibInfo) (path : CStr) : Bool :=
  d.installName == path || lastComponent d.installName == lastComponent path

/-- The dylibs a path stands for, in the order of the set. -/
def dylibsNamed (ds : List DylibInfo) (path : CStr) : List Nat :=
  (List.range ds.length).filter fun j => ds[j]?.any (sameDylib · path)

def findDylibIndexByInstallName (ds : List DylibInfo) (name : CStr) : Option Nat := ds.findIdx? (·.installName == name)

/-! ## `find_symbol_in_dylib` -/

/-- The first segment that contains the value moves it, else `__TEXT` does. -/
def relocate (d : DylibInfo) (val : UInt64) : UInt64 :=
  match d.segs.find? (·.contains val) with
  | some s => val + s.slide
  | none => val + d.textSeg.slide

/-- The test of the builder's loop; it does not look at the bounds of the string table. -/
def definesName (st : SymTab) (name : CStr) (sym : Nlist) : Bool :=
  sym.defined && sym.external && cstrAt st.strtab sym.strx.toNat == name

/-- The loop over what may have the symbol: the first address that is not 0. -/
def firstFound (go : Nat → Option UInt64) : List Nat → Option UInt64
  | [] => some 0
  | j :: js =>
    match go j with
    | none => none
    | some a => if a ≠ 0 then some a else firstFound go js

/-- The dylibs the re-exports of dylib `j` stand for. -/
def reexported (ds : List DylibInfo) (j : Nat) : List Nat :=
  ((ds[j]?.map fun d => reexports d.commands).getD []).flatMap (dylibsNamed ds)

/-- `none` where the recursion is deeper than `levels`. A dylib without a symbol table
    is not searched any further. -/
def findSymbolInDylib (ds : List DylibInfo) (name : CStr) : Nat → Nat → Option UInt64
  | 0, _ => none
  | levels + 1, j =>
    match ds[j]? with
    | none => some 0
    | some d =>
      match lastSymtab d.commands with
      | none => some 0
      | some st =>
        if st.symoff = 0 then some 0
        else
          match st.syms.find? (definesName st name) with
          | some sym => some (relocate d sym.value)
          | none => firstFound (findSymbolInDylib ds name levels) (reexported ds j)

/-! ## `resolve_symbol` -/

def mallocNames : List CStr :=
  [cstr "_malloc", cstr "_calloc", cstr "_free", cstr "_valloc", cstr "_aligned_alloc", cstr "_posix_memalign",
    cstr "_malloc_size", cstr "_malloc_good_size", cstr "_malloc_default_zone", cstr "_malloc_make_nonpurgeable",
    cstr "_malloc_make_purgeable"]

def exitNames : List CStr := [cstr "___exit", cstr "__exit"]

def bridgeNames : List CStr :=
  [cstr "__dyld_for_each_objc_class", cstr "__dyld_for_each_objc_protocol", cstr "__dyld_for_objc_header_opt_ro",
    cstr "__dyld_for_objc_header_opt_rw", cstr "__dyld_get_dlopen_image_header", cstr "__dyld_get_image_uuid",
    cstr "__dyld_get_objc_selector", cstr "__dyld_get_prog_image_header", cstr "__dyld_get_shared_cache_range",
    cstr "__dyld_is_memory_immutable", cstr "__dyld_lookup_section_info", cstr "__dyld_objc_class_count",
    cstr "__dyld_objc_register_callbacks"]

def preferredProviderForSymbol (name : CStr) : Option CStr :=
  if name ∈ mallocNames ∨ (cstr "_malloc_zone_").isPrefixOf name then some (cstr "/usr/lib/system/libsystem_malloc.dylib")
  else if name ∈ exitNames then some (cstr "/usr/lib/system/libsystem_kernel.dylib")
  else if name ∈ bridgeNames then some (cstr "/usr/lib/system/libpanthera_extra.dylib")
  else none

/-- The dylibs a positive ordinal stands for. -/
def ordinalTargets (ds : List DylibInfo) (fromDylib : Nat) (ordinal : Int) : List Nat :=
  if 0 < ordinal then
    match ds[fromDylib]?.bind fun d => (dependencies d.commands)[ordinal.toNat - 1]? with
    | none => []
    | some path => dylibsNamed ds path
  else []

/-- The preferred provider, then the ordinal's dylib, then every dylib in turn. -/
def resolveSymbol (ds : List DylibInfo) (levels : Nat) (name : CStr) (fromDylib : Nat) (ordinal : Int) : Option UInt64 :=
  let preferred := ((preferredProviderForSymbol name).bind (findDylibIndexByInstallName ds)).toList
  firstFound (findSymbolInDylib ds name levels)
    (preferred ++ ordinalTargets ds fromDylib ordinal ++ List.range ds.length)

/-! ## The cache as dyld sees it -/

/-- The loop of `adjust_symtab_values` over the segments. -/
def adjustValue (d : DylibInfo) (val : UInt64) : UInt64 :=
  match d.segs.find? (·.contains val) with
  | some s => val + s.slide
  | none => val

def adjustSym (d : DylibInfo) (sym : Nlist) : Nlist :=
  if sym.defined ∧ sym.value ≠ 0 then { sym with value := adjustValue d sym.value } else sym

def DylibInfo.linkSeg (d : DylibInfo) : Option SegInfo := d.linkSegIdx.bind fun i => d.segs[i]?

/-- `ADJ`: an offset into the original `__LINKEDIT` becomes one into the cache's. -/
def adj (d : DylibInfo) (field : UInt32) : UInt32 :=
  match d.linkSeg with
  | none => field
  | some s =>
    if s.origFileoff = 0 then field
    else if field ≠ 0 ∧ s.origFileoff ≤ field.toUInt64 then
      (s.cacheFileOff + (field.toUInt64 - s.origFileoff)).toUInt32
    else field

/-- The symbol table lies in the `__LINKEDIT` that is moved, to an offset of 32 bits, so
    that `rewrite_load_commands`, `adjust_symtab_values` and dyld mean the same records. -/
def SymtabMoved (d : DylibInfo) (st : SymTab) : Prop :=
  st.symoff ≠ 0 ∧ d.linkSeg.any fun s => s.origFileoff ≠ 0 ∧ s.origFileoff ≤ st.symoff.toUInt64 ∧
    (s.cacheFileOff + (st.symoff.toUInt64 - s.origFileoff)).toNat < 2 ^ 32

def rewriteSegment (d : DylibInfo) (seg : Segment) : Segment :=
  match d.segs.find? (·.name == seg.segname) with
  | none => seg
  | some s =>
    { seg with vmaddr := s.cacheVmaddr, fileoff := s.cacheFileOff
               sections := seg.sections.map fun x => { x with addr := x.addr + s.slide } }

/-- A load command in the cache. The symbol table's data goes with its command, which is
    what dyld finds for one that is `SymtabMoved`. -/
def rewriteCommand (d : DylibInfo) : LoadCommand → LoadCommand
  | .segment seg => .segment (rewriteSegment d seg)
  | .symtab st => .symtab { st with symoff := adj d st.symoff, syms := st.syms.map (adjustSym d) }
  | .dyldInfo info => .dyldInfo { info with exportOff := adj d info.exportOff }
  | .chainedFixups ld => .chainedFixups { ld with dataoff := adj d ld.dataoff }
  | .exportsTrie ld => .exportsTrie { ld with dataoff := adj d ld.dataoff }
  | c => c

def rewriteLoadCommands (d : DylibInfo) : List LoadCommand := d.commands.map (rewriteCommand d)

theorem findSegment_rewrite (d : DylibInfo) (name : CStr) :
    findSegment (rewriteLoadCommands d) name = (findSegment d.commands name).map (rewriteSegment d) := by
  have hsegs : segmentsOf (rewriteLoadCommands d) = (segmentsOf d.commands).map (rewriteSegment d) := by
    unfold segmentsOf rewriteLoadCommands
    rw [List.filterMap_map, List.map_filterMap]
    refine List.filterMap_congr fun c _ => ?_
    cases c <;> rfl
  have hname : ∀ seg : Segment, (rewriteSegment d seg).segname = seg.segname := by
    intro seg
    unfold rewriteSegment
    split <;> rfl
  unfold findSegment
  rw [hsegs, List.find?_map]
  congr 2
  funext seg
  rw [Function.comp, hname]

def imageInfo (d : DylibInfo) : Dyld.CacheImage :=
  ⟨d.installName, d.textSeg.cacheVmaddr, Dyld.mhMagic64, rewriteLoadCommands d, []⟩

/-- What `write_metadata` says of the cache, mapped with a slide. -/
def builtCache (R : Regions) (ds : List DylibInfo) (slide : UInt64) : Dyld.SharedCache where
  valid := true
  splitRegion := true
  preResolved := true
  images := ds.map imageInfo
  textAddr := textRegionBase
  textSize := R.textSize
  linkAddr := linkRegionBase
  linkFileOffset := R.linkFileOff
  slide := slide
  base := 0
  fileSize := 0

end Panthera.Cache
