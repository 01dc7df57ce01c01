/-
  Panthera.Cache.Layout — where the split-cache builder puts what it loads
  (`build_shared_cache_real.c`: `load_dylib`, `assign_addresses`,
  `record_rebase`).

  The builder keeps the first eight segments of each dylib, sorts them into a TEXT, a
  DATA and a LINKEDIT region by name, and gives each a file offset and a VM address in
  its region from three running cursors. All of it is 64-bit arithmetic that may wrap.
-/

import Panthera.MachO.Image

namespace Panthera.Cache

open MachO

def pageSz : Nat := 4096

def pageAlign (x : UInt64) : UInt64 := (x + 4095) &&& ~~~(4095 : UInt64)

def sharedRegionBase : UInt64 := 0x00007FFF20000000
def textRegionBase : UInt64 := 0x00007FFF20000000
def dataRegionBase : UInt64 := 0x00007FFF80000000
def linkRegionBase : UInt64 := 0x00007FFFC0000000

inductive Region where
  | text
  | data
  | linkedit
  deriving DecidableEq, Repr

def segRegion (name : CStr) : Region :=
  if name = segText then .text else if name = segLinkedit then .linkedit else .data

structure SegInfo where
  name : CStr
  origVmaddr : UInt64
  vmsize : UInt64
  origFileoff : UInt64
  filesize : UInt64
  cacheFileOff : UInt64
  cacheVmaddr : UInt64
  deriving DecidableEq, Repr

def SegInfo.region (s : SegInfo) : Region := segRegion s.name

/-- `segSlides[s]`. -/
def SegInfo.slide (s : SegInfo) : UInt64 := s.cacheVmaddr - s.origVmaddr

/-- The range test every address search of the builder makes: `sEnd` is computed in 64
    bits, so a segment that ends at or past 2^64 contains nothing. -/
def SegInfo.contains (s : SegInfo) (addr : UInt64) : Bool :=
  s.origVmaddr ≤ addr && addr < s.origVmaddr + s.vmsize

def maxSegs : Nat := 8

structure DylibInfo where
  installName : CStr
  commands : List LoadCommand
  segs : List SegInfo
  textSegIdx : Nat
  linkSegIdx : Option Nat
  segs_le : segs.length ≤ maxSegs
  text_lt : textSegIdx < segs.length
  deriving DecidableEq, Repr

def DylibInfo.textSeg (d : DylibInfo) : SegInfo := d.segs.get ⟨d.textSegIdx, d.text_lt⟩

/-! ## `load_dylib` -/

def SegInfo.load (s : Segment) : SegInfo := ⟨s.segname, s.vmaddr, s.vmsize, s.fileoff, s.filesize, 0, 0⟩

/-- The index the loop leaves in `textSegIdx` or `linkSegIdx`: the last match. -/
def lastIdx (name : CStr) (segs : List SegInfo) : Option Nat :=
  (List.range segs.length).reverse.find? fun i => (segs[i]?.map (·.name)) == some name

theorem lastIdx_lt {name : CStr} {segs : List SegInfo} {i : Nat} (h : lastIdx name segs = some i) :
    i < segs.length := by
  have := List.mem_of_find?_eq_some h
  simpa using this

def installNameOf (cmds : List LoadCommand) : CStr :=
  (cmds.foldl (fun r c => match c with | .idDylib n => n | _ => r) []).take 255

def loadDylib (cmds : List LoadCommand) (loaded : List DylibInfo) : Option DylibInfo :=
  let segs := ((segmentsOf cmds).take maxSegs).map SegInfo.load
  match h : lastIdx segText segs with
  | none => none
  | some t =>
    let name := installNameOf cmds
    if name = [] ∨ loaded.any (·.installName == name) then none
    else some ⟨name, cmds, segs, t, lastIdx segLinkedit segs, by simp [segs], lastIdx_lt h⟩

/-! ## `assign_addresses` -/

structure Cursors where
  text : UInt64
  data : UInt64
  link : UInt64
  deriving DecidableEq, Repr

def Cursors.get (c : Cursors) : Region → UInt64
  | .text => c.text
  | .data => c.data
  | .linkedit => c.link

def Cursors.advance (c : Cursors) (asz : UInt64) : Region → Cursors
  | .text => { c with text := c.text + asz }
  | .data => { c with data := c.data + asz }
  | .linkedit => { c with link := c.link + asz }

theorem get_advance (c : Cursors) (n : UInt64) (r r' : Region) :
    (c.advance n r').get r = if r' = r then c.get r + n else c.get r := by
  cases r <;> cases r' <;> rfl

def SegInfo.allocSize (s : SegInfo) : UInt64 := if pageAlign s.vmsize = 0 then 4096 else pageAlign s.vmsize

structure Regions where
  metaSize : UInt64
  textFileOff : UInt64
  textSize : UInt64
  dataFileOff : UInt64
  dataSize : UInt64
  linkFileOff : UInt64
  linkSize : UInt64
  slideInfoFileOff : UInt64
  slideInfoSize : UInt64
  bufSize : UInt64
  deriving DecidableEq, Repr

def totals (ds : List DylibInfo) : Cursors :=
  (ds.flatMap (·.segs)).foldl (fun c s => c.advance s.allocSize s.region) ⟨0, 0, 0⟩

def pathsSize (ds : List DylibInfo) : UInt64 :=
  ds.foldl (fun n d => n + UInt64.ofNat (d.installName.length + 1)) 0

/-- The file layout: metadata, TEXT, DATA, LINKEDIT, slide info. The sizes are those of
    `dyld_cache_header` (512), a mapping (32), a mapping with slide (56), an image (32)
    and `dyld_cache_slide_info2` (40). -/
def regionsOf (ds : List DylibInfo) : Regions :=
  let t := totals ds
  let metaSize := pageAlign (512 + 3 * 32 + 3 * 56 + UInt64.ofNat ds.length * 32 + pathsSize ds + 256)
  let dataFileOff := metaSize + pageAlign t.text
  let linkFileOff := dataFileOff + pageAlign t.data
  let slideInfoFileOff := linkFileOff + pageAlign t.link
  let dataPages := (pageAlign t.data + 4095) / 4096
  let slideInfoSize := pageAlign (40 + dataPages * 2 * 2 + 4096)
  { metaSize, textFileOff := metaSize, textSize := pageAlign t.text, dataFileOff, dataSize := pageAlign t.data,
    linkFileOff, linkSize := pageAlign t.link, slideInfoFileOff, slideInfoSize,
    bufSize := slideInfoFileOff + slideInfoSize }

def Regions.fileOff (R : Regions) : Region → UInt64
  | .text => R.textFileOff
  | .data => R.dataFileOff
  | .linkedit => R.linkFileOff

def regionBase : Region → UInt64
  | .text => textRegionBase
  | .data => dataRegionBase
  | .linkedit => linkRegionBase

def placeSegs (R : Regions) : Cursors → List SegInfo → Cursors × List SegInfo
  | c, [] => (c, [])
  | c, s :: l =>
    let s' := { s with cacheFileOff := R.fileOff s.region + c.get s.region
                       cacheVmaddr := regionBase s.region + c.get s.region }
    let r := placeSegs R (c.advance s.allocSize s.region) l
    (r.1, s' :: r.2)

@[simp] theorem placeSegs_length (R : Regions) (l : List SegInfo) : ∀ c, (placeSegs R c l).2.length = l.length := by
  induction l with
  | nil => intro c; rfl
  | cons s l ih => intro c; simp [placeSegs, ih]

def placeDylibs (R : Regions) : Cursors → List DylibInfo → List DylibInfo
  | _, [] => []
  | c, d :: l =>
    let r := placeSegs R c d.segs
    { d with segs := r.2, segs_le := by simpa [r] using d.segs_le, text_lt := by simpa [r] using d.text_lt }
      :: placeDylibs R r.1 l

def assignAddresses (ds : List DylibInfo) : Regions × List DylibInfo :=
  let R := regionsOf ds
  (R, placeDylibs R ⟨0, 0, 0⟩ ds)

/-! ## Page alignment -/

theorem pageAlign_toNat (x : UInt64) : (pageAlign x).toNat % pageSz = 0 := by
  have hm : (~~~(4095 : UInt64)).toNat % 2 ^ 12 = 0 := by decide
  show (pageAlign x).toNat % 2 ^ 12 = 0
  rw [pageAlign, UInt64.toNat_and, Nat.and_mod_two_pow, hm, Nat.and_zero]

/-! ## `record_rebase` -/

def maxRebaseLocs : Nat := 2 ^ 20

/-- `gRebaseLocs` and `gNumRebaseLocs`: a table that never outgrows its array. -/
structure RebaseLocs where
  locs : List Nat
  bounded : locs.length ≤ maxRebaseLocs

def RebaseLocs.empty : RebaseLocs := ⟨[], by simp⟩

/-- A location that finds the table full is dropped. -/
def recordRebase (r : RebaseLocs) (cacheFileOff : Nat) : RebaseLocs :=
  if h : r.locs.length < maxRebaseLocs then ⟨r.locs ++ [cacheFileOff], by simpa using h⟩ else r

end Panthera.Cache
