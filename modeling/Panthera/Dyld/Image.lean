/-
  Panthera.Dyld.Image — dyld's image table and the shared cache it loads from
  (`LoadedImage`, `findDylibInCache`, `isImageFromCache`, `linkeditBaseForImage`,
  `parseSymtab`, and the lookups by path).

  An image is a record of the table `sImages`, and a pointer to one is its index. What
  its header points at is carried by its load commands (`Panthera.MachO.Image`), which
  no fixup is taken to overwrite.
-/

import Panthera.MachO.Image

namespace Panthera.Dyld

open MachO

def maxImages : Nat := 64

def mhMagic64 : UInt32 := 0xFEEDFACF

structure LoadedImage where
  header : UInt64
  slide : UInt64
  path : CStr
  commands : List LoadCommand
  symtab : Option SymTab
  deriving DecidableEq, Repr

/-! ## The shared cache -/

structure CacheImage where
  path : CStr
  address : UInt64
  magic : UInt32
  commands : List LoadCommand
  /-- The bytes from the image's header on; read only from a flat cache. -/
  contents : List UInt8
  deriving DecidableEq, Repr

/-- What `initSharedCache` leaves. Both ways of mapping a split cache put a region's
    base at its address plus the slide. -/
structure SharedCache where
  valid : Bool
  splitRegion : Bool
  preResolved : Bool
  images : List CacheImage
  textAddr : UInt64
  textSize : UInt64
  linkAddr : UInt64
  linkFileOffset : UInt64
  slide : UInt64
  /-- `sCacheBase` and `sCacheFileSize` of a flat cache. -/
  base : UInt64
  fileSize : UInt64

def SharedCache.absent : SharedCache := ⟨false, false, false, [], 0, 0, 0, 0, 0, 0, 0⟩

def SharedCache.textBase (C : SharedCache) : UInt64 := C.textAddr + C.slide

def SharedCache.linkBase (C : SharedCache) : UInt64 := C.linkAddr + C.slide

/-- The image passes the range test of its kind of cache. -/
def SharedCache.inRange (C : SharedCache) (ci : CacheImage) : Bool :=
  if C.splitRegion then !(ci.address < C.textAddr || C.textAddr + C.textSize ≤ ci.address)
  else ci.address - C.base < C.fileSize

def findDylibInCache (C : SharedCache) (path : CStr) : Option CacheImage :=
  if C.valid then
    C.images.find? fun ci => (ci.path == path || basename ci.path == basename path) && C.inRange ci
  else none

def isImageFromCache (C : SharedCache) (header : UInt64) : Bool :=
  C.preResolved && header != 0 && C.splitRegion && C.textBase ≤ header && header < C.textBase + C.textSize

/-! ## Symbol tables -/

def linkeditBaseForImage (C : SharedCache) (header : UInt64) (textSeg linkSeg : Segment) : UInt64 :=
  if isImageFromCache C header && C.splitRegion then C.linkBase - C.linkFileOffset
  else header + (linkSeg.vmaddr - textSeg.vmaddr) - linkSeg.fileoff

def parseSymtab (C : SharedCache) (header : UInt64) (cmds : List LoadCommand) : Option SymTab :=
  match findSegment cmds segText, findSegment cmds segLinkedit with
  | some textSeg, some linkSeg =>
    if linkeditBaseForImage C header textSeg linkSeg = 0 then none else lastSymtab cmds
  | _, _ => none

/-- A fresh record of the table, its symbol table parsed. -/
def LoadedImage.ofHeader (C : SharedCache) (header slide : UInt64) (path : CStr) (cmds : List LoadCommand) : LoadedImage :=
  ⟨header, slide, path, cmds, parseSymtab C header cmds⟩

/-! ## Lookups by path -/

/-- `loadImage`'s own check: the first image of that path or of that base name. -/
def findAlreadyLoaded (images : List LoadedImage) (path : CStr) : Option Nat :=
  images.findIdx? fun img => img.path == path || basename img.path == basename path

/-- The path in full over the whole table first, then the base name. -/
def findLoadedImageByPath (images : List LoadedImage) (path : CStr) : Option Nat :=
  match images.findIdx? (·.path == path) with
  | some i => some i
  | none => images.findIdx? fun img => basename img.path == basename path

/-- `findLoadedImageByPathBounded`, for a name terminated inside its command. -/
def findLoadedImageByPathBounded (images : List LoadedImage) (path : CStr) : Option Nat :=
  images.findIdx? (·.path == path)

end Panthera.Dyld
