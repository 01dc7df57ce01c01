/-
  Panthera.Cache.Simple — the flat cache, from the tool that packs it
  (`build_shared_cache_simple.c`) to the dyld that opens it
  (`panthera_dyld.cpp`: `initSharedCache`, `findDylibInCache`).

  The two programs share no header file: each declares the layout of the cache's header
  on its own. Both are modelled on the bytes of the file, so what one stores and the
  other loads meets only at an offset.

  The writer's `_pad1` has 184 bytes where reaching offset 224 takes 192. Its
  `sharedRegionStart` is therefore at 216 and its `sharedRegionSize` at 224, which is
  where the reader looks for the start (`opened`). Every image offset dyld computes is
  wrong by the difference and lies past the end of the file, and no file is found
  unless there is none (`packed_iff`).
-/

import Panthera.Cache.Layout
import Panthera.Dyld.Image
import Panthera.Lib.Pages
import Panthera.Lib.Ranges

namespace Panthera.Cache.Simple

open Lib Lib.Bytes Lib.Ranges MachO Dyld

/-! ## Strings in memory -/

/-- The C string at `a`, of at most `n` bytes. -/
def cstrIn (m : Mem) : Nat → Nat → CStr
  | 0, _ => []
  | n + 1, a => if m a = 0 then [] else m a :: cstrIn m n (a + 1)

/-! ## `load_dylib` -/

structure DylibFile where
  contents : List UInt8
  mtime : UInt64
  inode : UInt64
  deriving DecidableEq, Repr

structure DylibInfo where
  installName : CStr
  file : DylibFile
  deriving DecidableEq, Repr

def DylibInfo.fileSize (d : DylibInfo) : UInt64 := UInt64.ofNat d.file.contents.length

def maxDylibs : Nat := 32

def lcIdDylib : UInt32 := 0xD

/-- The loop over the load commands: the last `LC_ID_DYLIB` names the file. -/
def idName (file : Mem) (size : Nat) : Nat → Nat → CStr → CStr
  | 0, _, name => name
  | n + 1, cmd, name =>
    idName file size n (cmd + (read32 file (cmd + 4)).toNat)
      (if read32 file cmd = lcIdDylib then (cstrIn file size (cmd + (read32 file (cmd + 8)).toNat)).take 255 else name)

def DylibFile.installName (f : DylibFile) : CStr :=
  let file := memOf f.contents
  idName file f.contents.length (read32 file 16).toNat 32 []

def loadDylib (loaded : List DylibInfo) (f : DylibFile) : List DylibInfo :=
  if maxDylibs ≤ loaded.length then loaded
  else if read32 (memOf f.contents) 0 ≠ mhMagic64 then loaded
  else if f.installName = [] ∨ loaded.any (·.installName == f.installName) then loaded
  else loaded ++ [⟨f.installName, f⟩]

def loadDylibs (files : List DylibFile) : List DylibInfo := files.foldl loadDylib []

/-! ## The packer's `main` -/

def cacheBase : UInt64 := 0x200000000

/-- `struct dyld_cache_header` as the packer declares it. -/
def padOne : Nat := 184
def sharedRegionStartAt : Nat := 16 + 4 * 4 + padOne
def sharedRegionSizeAt : Nat := sharedRegionStartAt + 8
def headerSize : Nat := sharedRegionSizeAt + 8 + 256

def imagesOff : UInt32 := UInt32.ofNat headerSize

def pathsOff (ds : List DylibInfo) : UInt32 := imagesOff + UInt32.ofNat ds.length * 32

def pathsSize (ds : List DylibInfo) : UInt64 :=
  ds.foldl (fun size d => size + UInt64.ofNat (d.installName.length + 1)) 0

def metaSize (ds : List DylibInfo) : UInt64 := pageAlign ((pathsOff ds).toUInt64 + pathsSize ds)

/-- The loop that gives each file its `cacheFileOff`, and the cursor it ends with. -/
def assign : UInt64 → List DylibInfo → List (DylibInfo × UInt64) × UInt64
  | cursor, [] => ([], cursor)
  | cursor, d :: ds =>
    let r := assign (cursor + pageAlign d.fileSize) ds
    ((d, cursor) :: r.1, r.2)

def copyFiles (placed : List (DylibInfo × UInt64)) (buf : Mem) : Mem :=
  placed.foldl (fun buf p => put buf p.2.toNat p.1.file.contents) buf

/-- `"dyld_v1  x86_64\0"`. -/
def magic : List UInt8 := [100, 121, 108, 100, 95, 118, 49, 32, 32, 120, 56, 54, 95, 54, 52, 0]

def writeHeader (count : Nat) (totalSize : UInt64) (buf : Mem) : Mem :=
  let buf := put buf 0 magic
  let buf := write32 buf 16 0
  let buf := write32 buf 20 0
  let buf := write32 buf 24 imagesOff
  let buf := write32 buf 28 (UInt32.ofNat count)
  let buf := write64 buf sharedRegionStartAt cacheBase
  write64 buf sharedRegionSizeAt totalSize

/-- One `dyld_cache_image_info`; its `pad` keeps the zeros of `calloc`. -/
def writeRecord (at_ : Nat) (pathCur : UInt32) (d : DylibInfo) (cacheFileOff : UInt64) (buf : Mem) : Mem :=
  let buf := write64 buf at_ (cacheBase + cacheFileOff)
  let buf := write64 buf (at_ + 8) d.file.mtime
  let buf := write64 buf (at_ + 16) d.file.inode
  write32 buf (at_ + 24) pathCur

def writeImages : Nat → UInt32 → List (DylibInfo × UInt64) → Mem → Mem
  | _, _, [], buf => buf
  | i, pathCur, (d, off) :: ds, buf =>
    let buf := writeRecord (imagesOff.toNat + 32 * i) pathCur d off buf
    let buf := put buf pathCur.toNat (d.installName ++ [0])
    writeImages (i + 1) (pathCur + UInt32.ofNat (d.installName.length + 1)) ds buf

structure CacheFile where
  bytes : Mem
  size : UInt64

def packLoaded (ds : List DylibInfo) : CacheFile :=
  let placed := (assign (metaSize ds) ds).1
  let totalSize := (assign (metaSize ds) ds).2
  let buf := copyFiles placed fun _ => 0
  let buf := writeHeader ds.length totalSize buf
  ⟨writeImages 0 (pathsOff ds) placed buf, totalSize⟩

def pack (files : List DylibFile) : CacheFile := packLoaded (loadDylibs files)

/-! ## `initSharedCache` -/

structure MappingInfo where
  address : UInt64
  size : UInt64
  fileOffset : UInt64
  deriving DecidableEq, Repr

def mappingInfo (buf : Mem) (mappingOff i : Nat) : MappingInfo :=
  ⟨read64 buf (mappingOff + 32 * i), read64 buf (mappingOff + 32 * i + 8), read64 buf (mappingOff + 32 * i + 16)⟩

/-- The TEXT mapping of a split cache and `sCacheSlide`. -/
structure SplitRegion where
  textAddr : UInt64
  textSize : UInt64
  slide : UInt64
  deriving DecidableEq, Repr

structure OpenCache where
  file : CacheFile
  base : UInt64
  images : Nat
  imageCount : UInt32
  split : Option SplitRegion

/-- The eight bytes the reader compares: `dyld_v1` and a space. -/
def readerMagic : List UInt8 := magic.take 8

/-- Offsets in dyld's `PantheraCacheHeader`, of 512 bytes. -/
def readerSharedRegionStartAt : Nat := 224
def readerImagesOffsetAt : Nat := 448
def readerHeaderSize : UInt64 := 512

/-- `imagesOff` and `imagesCnt`: the late fields when the file is long enough to have
    them and they are set. -/
def imageTable (file : CacheFile) : UInt32 × UInt32 :=
  if readerHeaderSize ≤ file.size ∧ read32 file.bytes readerImagesOffsetAt ≠ 0 then
    (read32 file.bytes readerImagesOffsetAt, read32 file.bytes (readerImagesOffsetAt + 4))
  else (read32 file.bytes 24, read32 file.bytes 28)

/-- `mapSplit` stands for the two ways of mapping a split cache; it gives the slide. -/
def initSharedCache (mapSplit : MappingInfo → MappingInfo → MappingInfo → Option UInt64) (file : CacheFile) :
    Option OpenCache :=
  let buf := file.bytes
  if (List.range 8).map buf ≠ readerMagic then none
  else if file.size < 232 then none
  else
    let mappingOff := read32 buf 16
    let mappingCnt := read32 buf 20
    let table := imageTable file
    let base := read64 buf readerSharedRegionStartAt
    if file.size < table.1.toUInt64 + table.2.toUInt64 * 32 then none
    else if 3 ≤ mappingCnt ∧ 0 < mappingOff ∧ mappingOff.toUInt64 + 3 * 32 ≤ file.size then
      let text := mappingInfo buf mappingOff.toNat 0
      match mapSplit text (mappingInfo buf mappingOff.toNat 1) (mappingInfo buf mappingOff.toNat 2) with
      | none => none
      | some slide => some ⟨file, base, table.1.toNat, table.2, some ⟨text.address, text.size, slide⟩⟩
    else some ⟨file, base, table.1.toNat, table.2, none⟩

/-! ## `findDylibInCache` -/

def OpenCache.address (c : OpenCache) (i : Nat) : UInt64 := read64 c.file.bytes (c.images + 32 * i)

def OpenCache.path (c : OpenCache) (i : Nat) : CStr :=
  cstrIn c.file.bytes c.file.size.toNat (read32 c.file.bytes (c.images + 32 * i + 24)).toNat

inductive Pointer where
  /-- `sCacheMap + off`. -/
  | map (off : UInt64)
  /-- An address of the mapped TEXT region. -/
  | vm (addr : UInt64)
  deriving DecidableEq, Repr

/-- Where the image at `start` ends: at the next image when that lies between it and
    `limit`. -/
def nextAfter (limit start : UInt64) (next : Option UInt64) : UInt64 :=
  match next with
  | some n => if start < n ∧ n ≤ limit then n else limit
  | none => limit

def OpenCache.next (c : OpenCache) (i : Nat) : Option UInt64 :=
  if i + 1 < c.imageCount.toNat then some (c.address (i + 1)) else none

/-- The body of the loop for an image whose name matches; `none` is `continue`. -/
def OpenCache.locate (c : OpenCache) (i : Nat) : Option (Pointer × UInt64) :=
  match c.split with
  | some r =>
    let imgAddr := c.address i
    let textEnd := r.textAddr + r.textSize
    if imgAddr < r.textAddr ∨ textEnd ≤ imgAddr then none
    else some (.vm (imgAddr + r.slide), nextAfter textEnd imgAddr (c.next i) - imgAddr)
  | none =>
    let fileOff := c.address i - c.base
    if c.file.size ≤ fileOff then none
    else some (.map fileOff, nextAfter c.file.size fileOff ((c.next i).map (· - c.base)) - fileOff)

def OpenCache.matches (c : OpenCache) (path : CStr) (i : Nat) : Bool :=
  c.path i == path || basename (c.path i) == basename path

def findDylibInCache (c : OpenCache) (path : CStr) : Option (Pointer × UInt64) :=
  (List.range c.imageCount.toNat).findSome? fun i => if c.matches path i then c.locate i else none

/-! ## What the packer leaves in the file -/

theorem idName_length (file : Mem) (size : Nat) : ∀ n cmd name, name.length ≤ 255 →
    (idName file size n cmd name).length ≤ 255 := by
  intro n
  induction n with
  | zero => intro cmd name h; exact h
  | succ n ih =>
    intro cmd name h
    refine ih _ _ ?_
    split_ifs
    · exact List.length_take_le _ _
    · exact h

/-- The packer's table: at most 32 of the files, under names that fit their buffers. -/
structure Loaded (files : List DylibFile) (ds : List DylibInfo) : Prop where
  count : ds.length ≤ maxDylibs
  names : ∀ d ∈ ds, d.installName.length ≤ 255
  given : (ds.map DylibInfo.file).Sublist files

theorem loaded_loadDylibs (files : List DylibFile) : Loaded files (loadDylibs files) := by
  -- a file is appended to the table as it is taken from the front of the list
  have key : ∀ (fs : List DylibFile) (loaded : List DylibInfo), loaded.length ≤ maxDylibs →
      (∀ d ∈ loaded, d.installName.length ≤ 255) →
      Loaded (loaded.map DylibInfo.file ++ fs) (fs.foldl loadDylib loaded) := by
    intro fs
    induction fs with
    | nil => intro loaded hcount hnames; exact ⟨hcount, hnames, by simp⟩
    | cons f fs ih =>
      intro loaded hcount hnames
      have skip : loadDylib loaded f = loaded →
          Loaded (loaded.map DylibInfo.file ++ f :: fs) ((f :: fs).foldl loadDylib loaded) := by
        intro hskip
        have hrest := ih loaded hcount hnames
        rw [List.foldl_cons, hskip]
        exact ⟨hrest.count, hrest.names, hrest.given.trans ((List.sublist_cons_self f fs).append_left _)⟩
      by_cases hfull : maxDylibs ≤ loaded.length
      · exact skip (if_pos hfull)
      by_cases hmagic : read32 (memOf f.contents) 0 ≠ mhMagic64
      · exact skip (by rw [loadDylib, if_neg hfull, if_pos hmagic])
      by_cases hname : f.installName = [] ∨ loaded.any (·.installName == f.installName)
      · exact skip (by rw [loadDylib, if_neg hfull, if_neg hmagic, if_pos hname])
      have hnew : loadDylib loaded f = loaded ++ [⟨f.installName, f⟩] := by
        rw [loadDylib, if_neg hfull, if_neg hmagic, if_neg hname]
      have hrest := ih (loaded ++ [⟨f.installName, f⟩]) (by simp; omega) (by
        intro d hd
        rcases List.mem_append.mp hd with hd | hd
        · exact hnames d hd
        · rw [List.mem_singleton.mp hd]
          exact idName_length _ _ _ _ _ (Nat.zero_le _))
      rw [List.foldl_cons, hnew]
      simpa using hrest
  exact key files [] (Nat.zero_le _) (fun _ h => by cases h)

section Layout

variable {files : List DylibFile} {ds : List DylibInfo}

theorem toNat_foldl_add (f : DylibInfo → Nat) : ∀ (ds : List DylibInfo) (s : UInt64),
    s.toNat + (ds.map f).sum < 2 ^ 64 →
    (ds.foldl (fun s d => s + UInt64.ofNat (f d)) s).toNat = s.toNat + (ds.map f).sum := by
  intro ds
  induction ds with
  | nil => intro s _; simp
  | cons d ds ih =>
    intro s h
    simp only [List.map_cons, List.sum_cons] at h ⊢
    have hs : (s + UInt64.ofNat (f d)).toNat = s.toNat + f d := by
      rw [UInt64.toNat_add, UInt64.toNat_ofNat']
      omega
    rw [List.foldl_cons, ih _ (by omega), hs]
    omega

/-- The bytes the names take, with their terminators. -/
def namesRoom (ds : List DylibInfo) : Nat := (ds.map fun d => d.installName.length + 1).sum

variable (h : Loaded files ds)
include h

theorem Loaded.namesRoom_le : namesRoom ds ≤ 8192 := by
  have hle : ∀ n ∈ ds.map fun d => d.installName.length + 1, n ≤ 256 := by
    intro n hn
    obtain ⟨d, hd, rfl⟩ := List.mem_map.mp hn
    exact Nat.succ_le_succ (h.names d hd)
  have hsum := List.sum_le_card_nsmul _ _ hle
  rw [List.length_map, smul_eq_mul] at hsum
  exact hsum.trans (Nat.mul_le_mul_right 256 h.count)

theorem Loaded.toNat_pathsOff : (pathsOff ds).toNat = 488 + 32 * ds.length := by
  have hcount : ds.length ≤ 32 := h.count
  have himg : imagesOff.toNat = 488 := rfl
  have hrec : (32 : UInt32).toNat = 32 := rfl
  rw [pathsOff, UInt32.toNat_add, UInt32.toNat_mul, UInt32.toNat_ofNat', himg, hrec]
  omega

theorem Loaded.toNat_pathsSize : (pathsSize ds).toNat = namesRoom ds := by
  have hsum := h.namesRoom_le
  have hzero : (0 : UInt64).toNat = 0 := rfl
  have hfold := toNat_foldl_add (fun d => d.installName.length + 1) ds 0 (by unfold namesRoom at hsum; omega)
  rw [hzero, Nat.zero_add] at hfold
  exact hfold

/-- The tables fit below the first file, in at most three pages. -/
theorem Loaded.metaSize_bounds :
    488 + 32 * ds.length + namesRoom ds ≤ (metaSize ds).toNat ∧
    4096 ≤ (metaSize ds).toNat ∧ (metaSize ds).toNat ≤ 12288 := by
  have hnames := h.namesRoom_le
  have hcount : ds.length ≤ 32 := h.count
  have hoff : ((pathsOff ds).toUInt64 + pathsSize ds).toNat = 488 + 32 * ds.length + namesRoom ds := by
    rw [UInt64.toNat_add, UInt32.toNat_toUInt64, h.toNat_pathsOff, h.toNat_pathsSize]
    omega
  unfold metaSize pageAlign
  rw [Pages.toNat_roundUp (by omega), hoff]
  unfold Pages.roundUp
  omega

omit h

/-- The room the files take, each rounded up to a page. -/
def room (ds : List DylibInfo) : Nat := (ds.map fun d => Pages.roundUp d.file.contents.length).sum

theorem room_cons (d : DylibInfo) (ds : List DylibInfo) :
    room (d :: ds) = Pages.roundUp d.file.contents.length + room ds := by
  simp [room]

/-- The cursor ends past all of them, and each file starts between. -/
theorem assign_spec : ∀ (ds : List DylibInfo) (cursor : UInt64), cursor.toNat + room ds + 4096 < 2 ^ 64 →
    (assign cursor ds).2.toNat = cursor.toNat + room ds ∧
    (assign cursor ds).1.map Prod.fst = ds ∧
    ∀ p ∈ (assign cursor ds).1, cursor.toNat ≤ p.2.toNat ∧ p.2.toNat ≤ cursor.toNat + room ds := by
  intro ds
  induction ds with
  | nil => intro cursor _; simp [assign, room]
  | cons d ds ih =>
    intro cursor h
    have hle := Pages.le_roundUp d.file.contents.length
    have hlt := Pages.roundUp_lt d.file.contents.length
    rw [room_cons] at h
    have hsize : d.fileSize.toNat = d.file.contents.length := by
      unfold DylibInfo.fileSize
      rw [UInt64.toNat_ofNat']
      omega
    have hstep : (cursor + pageAlign d.fileSize).toNat = cursor.toNat + Pages.roundUp d.file.contents.length := by
      rw [pageAlign, UInt64.toNat_add, Pages.toNat_roundUp (by omega), hsize]
      omega
    obtain ⟨hend, hfst, hbetween⟩ := ih (cursor + pageAlign d.fileSize) (by omega)
    rw [hstep] at hend hbetween
    rw [room_cons]
    refine ⟨by simp only [assign]; omega, by simp [assign, hfst], fun p hp => ?_⟩
    rcases List.mem_cons.mp hp with rfl | hp
    · exact ⟨Nat.le_refl _, Nat.le_add_right _ _⟩
    · have := hbetween p hp
      omega

theorem copyFiles_below {placed : List (DylibInfo × UInt64)} {x : Nat} (h : ∀ p ∈ placed, x < p.2.toNat) (buf : Mem) :
    copyFiles placed buf x = buf x := by
  refine List.foldlRecOn placed _ (motive := fun m : Mem => m x = buf x) rfl ?_
  intro m hm p hp
  rw [put_outside (by have := h p hp; simp only [Range.mem_iff]; omega), hm]

/-- The records keep what lies below them, and each holds the address of its image. -/
theorem writeImages_spec : ∀ (placed : List (DylibInfo × UInt64)) (i : Nat) (pathCur : UInt32) (buf : Mem),
    488 + 32 * (i + placed.length) ≤ pathCur.toNat →
    pathCur.toNat + namesRoom (placed.map Prod.fst) < 2 ^ 32 →
    (∀ x < 488 + 32 * i, writeImages i pathCur placed buf x = buf x) ∧
    ∀ k (hk : k < placed.length), read64 (writeImages i pathCur placed buf) (488 + 32 * (i + k)) =
      cacheBase + (placed.get ⟨k, hk⟩).2 := by
  intro placed
  induction placed with
  | nil => intro i pathCur buf _ _; exact ⟨fun _ _ => rfl, fun k hk => absurd hk (Nat.not_lt_zero k)⟩
  | cons p ds ih =>
    obtain ⟨d, off⟩ := p
    intro i pathCur buf hlow hroom
    have himg : imagesOff.toNat = 488 := rfl
    simp only [List.length_cons, List.map_cons, namesRoom, List.sum_cons] at hlow hroom
    have hnext : (pathCur + UInt32.ofNat (d.installName.length + 1)).toNat = pathCur.toNat + (d.installName.length + 1) := by
      rw [UInt32.toNat_add, UInt32.toNat_ofNat']
      omega
    obtain ⟨hbelow, hrecords⟩ := ih (i + 1) (pathCur + UInt32.ofNat (d.installName.length + 1))
      (put (writeRecord (488 + 32 * i) pathCur d off buf) pathCur.toNat (d.installName ++ [0]))
      (by omega) (by rw [hnext, namesRoom]; omega)
    rw [writeImages, himg]
    -- the name goes past every record, so it leaves this one as it was written
    have hname : ∀ x < 488 + 32 * (i + 1), put (writeRecord (488 + 32 * i) pathCur d off buf) pathCur.toNat
        (d.installName ++ [0]) x = writeRecord (488 + 32 * i) pathCur d off buf x := by
      intro x hx
      exact put_outside (by simp only [Range.mem_iff]; omega)
    refine ⟨fun x hx => ?_, fun k hk => ?_⟩
    · rw [hbelow x (by omega), hname x (by omega), writeRecord]
      simp only [write32, write64]
      rw [writeLE_outside _ (by omega), writeLE_outside _ (by omega), writeLE_outside _ (by omega),
        writeLE_outside _ (by omega)]
    · cases k with
      | zero =>
        rw [read64_congr fun j hj => hbelow _ (by omega), read64_congr fun j hj => hname _ (by omega)]
        simp only [writeRecord, write32]
        rw [read64_congr fun j hj => writeLE_outside _ (by omega), read64_write64_disjoint (by omega),
          read64_write64_disjoint (by omega), Nat.add_zero, read64_write64]
        rfl
      | succ k =>
        have := hrecords k (by simpa using hk)
        rwa [show i + 1 + k = i + (k + 1) by omega] at this

theorem writeHeader_spec (count : Nat) (totalSize : UInt64) (buf : Mem) :
    (List.range 8).map (writeHeader count totalSize buf) = readerMagic ∧
    read32 (writeHeader count totalSize buf) 16 = 0 ∧ read32 (writeHeader count totalSize buf) 20 = 0 ∧
    read32 (writeHeader count totalSize buf) 24 = imagesOff ∧
    read32 (writeHeader count totalSize buf) 28 = UInt32.ofNat count ∧
    read64 (writeHeader count totalSize buf) readerSharedRegionStartAt = totalSize ∧
    ∀ x, 232 ≤ x → writeHeader count totalSize buf x = buf x := by
  have hstart : sharedRegionStartAt = 216 := rfl
  have hsize : sharedRegionSizeAt = 224 := rfl
  have hread : readerSharedRegionStartAt = 224 := rfl
  unfold writeHeader
  simp only [hstart, hsize, hread]
  refine ⟨?_, ?_, ?_, ?_, ?_, read64_write64 _ _ _, fun x hx => ?_⟩
  · rfl
  · rw [read32_write64_disjoint (by omega), read32_write64_disjoint (by omega), read32_write32_disjoint (by omega),
      read32_write32_disjoint (by omega), read32_write32_disjoint (by omega), read32_write32]
  · rw [read32_write64_disjoint (by omega), read32_write64_disjoint (by omega), read32_write32_disjoint (by omega),
      read32_write32_disjoint (by omega), read32_write32]
  · rw [read32_write64_disjoint (by omega), read32_write64_disjoint (by omega), read32_write32_disjoint (by omega),
      read32_write32]
  · rw [read32_write64_disjoint (by omega), read32_write64_disjoint (by omega), read32_write32]
  · rw [write64_outside (by omega), write64_outside (by omega)]
    simp only [write32]
    rw [writeLE_outside _ (by omega), writeLE_outside _ (by omega), writeLE_outside _ (by omega),
      writeLE_outside _ (by omega), put_outside]
    simp only [Range.mem_iff, magic, List.length_cons, List.length_nil]
    omega

end Layout

/-! ## What dyld makes of it -/

section Reader

variable {files : List DylibFile} {ds : List DylibInfo}

/-- The whole file, in bytes. -/
def packedSize (ds : List DylibInfo) : Nat := (metaSize ds).toNat + room ds

/-- dyld opens the packed file as a flat cache of all the files, and takes the file's
    size for the address its first byte stands for. -/
theorem opened (mapSplit : MappingInfo → MappingInfo → MappingInfo → Option UInt64) (h : Loaded files ds)
    (hroom : room ds < 2 ^ 63) :
    ∃ c, initSharedCache mapSplit (packLoaded ds) = some c ∧ c.split = none ∧
      c.file.size.toNat = packedSize ds ∧ c.base = c.file.size ∧ c.imageCount.toNat = ds.length ∧
      ∀ i < ds.length, ∃ off : UInt64, c.address i = cacheBase + off ∧
        (metaSize ds).toNat ≤ off.toNat ∧ off.toNat ≤ packedSize ds := by
  obtain ⟨hmeta, hpage, hthree⟩ := h.metaSize_bounds
  have hcount : ds.length ≤ 32 := h.count
  have hnames := h.namesRoom_le
  obtain ⟨htotal, hfst, hbetween⟩ := assign_spec ds (metaSize ds) (by omega)
  have hlen : (assign (metaSize ds) ds).1.length = ds.length := by
    rw [← List.length_map (f := Prod.fst), hfst]
  obtain ⟨hbelow, hrecords⟩ := writeImages_spec (assign (metaSize ds) ds).1 0 (pathsOff ds)
    (writeHeader ds.length (assign (metaSize ds) ds).2 (copyFiles (assign (metaSize ds) ds).1 fun _ => 0))
    (by rw [h.toNat_pathsOff]; omega) (by rw [h.toNat_pathsOff, hfst]; omega)
  obtain ⟨hmagic, hmoff, hmcnt, hioff, hicnt, hbase, hrest⟩ := writeHeader_spec ds.length
    (assign (metaSize ds) ds).2 (copyFiles (assign (metaSize ds) ds).1 fun _ => 0)
  have hhead : ∀ x < 488, (packLoaded ds).bytes x = writeHeader ds.length (assign (metaSize ds) ds).2
      (copyFiles (assign (metaSize ds) ds).1 fun _ => 0) x := fun x hx => hbelow x (by omega)
  have hword : ∀ a, a + 4 ≤ 488 → read32 (packLoaded ds).bytes a = read32 (writeHeader ds.length
      (assign (metaSize ds) ds).2 (copyFiles (assign (metaSize ds) ds).1 fun _ => 0)) a :=
    fun a ha => read32_congr fun i hi => hhead _ (by omega)
  have hsize : (packLoaded ds).size.toNat = packedSize ds := htotal
  have hlong : 4096 ≤ (packLoaded ds).size.toNat := by rw [hsize, packedSize]; omega
  -- the late image fields lie in the packer's `_pad2`, which nothing writes
  have hlate : read32 (packLoaded ds).bytes readerImagesOffsetAt = 0 := by
    have hat : readerImagesOffsetAt = 448 := rfl
    have hzero : ∀ i < 4, (packLoaded ds).bytes (448 + i) = (fun _ => 0 : Mem) (448 + i) := by
      intro i hi
      rw [hhead _ (by omega), hrest _ (by omega), copyFiles_below]
      exact fun p hp => by have := hbetween p hp; omega
    have hread : read32 (packLoaded ds).bytes 448 = read32 (fun _ => 0) 448 := read32_congr hzero
    rw [hat, hread]
    rfl
  have htable : imageTable (packLoaded ds) = (imagesOff, UInt32.ofNat ds.length) := by
    rw [imageTable, if_neg fun hc => hc.2 hlate, hword 24 (by omega), hword 28 (by omega), hioff, hicnt]
  have hcnt : (UInt32.ofNat ds.length).toNat = ds.length := by
    rw [UInt32.toNat_ofNat']
    omega
  refine ⟨⟨packLoaded ds, (packLoaded ds).size, imagesOff.toNat, UInt32.ofNat ds.length, none⟩, ?_, rfl, hsize, rfl,
    hcnt, fun i hi => ?_⟩
  · have hm : (List.range 8).map (packLoaded ds).bytes = readerMagic := by
      rw [← hmagic]
      exact List.map_congr_left fun x hx => hhead x (by have := List.mem_range.mp hx; omega)
    have hb : read64 (packLoaded ds).bytes readerSharedRegionStartAt = (packLoaded ds).size := by
      have hat : readerSharedRegionStartAt + 8 ≤ 488 := by decide
      rw [read64_congr fun i hi => hhead _ (by omega), hbase]
      rfl
    have hfits : ¬ (packLoaded ds).size < imagesOff.toUInt64 + (UInt32.ofNat ds.length).toUInt64 * 32 := by
      have himg : imagesOff.toNat = 488 := rfl
      have hrec : (32 : UInt64).toNat = 32 := rfl
      rw [UInt64.lt_iff_toNat_lt, UInt64.toNat_add, UInt64.toNat_mul, UInt32.toNat_toUInt64, UInt32.toNat_toUInt64, hcnt,
        himg, hrec]
      omega
    have hmin : ¬ (packLoaded ds).size < 232 := by
      have hlit : (232 : UInt64).toNat = 232 := rfl
      rw [UInt64.lt_iff_toNat_lt]
      omega
    have hflat : ¬ (3 ≤ read32 (packLoaded ds).bytes 20 ∧ 0 < read32 (packLoaded ds).bytes 16 ∧
        (read32 (packLoaded ds).bytes 16).toUInt64 + 3 * 32 ≤ (packLoaded ds).size) := by
      rw [hword 20 (by omega), hmcnt]
      exact fun hc => absurd hc.1 (by decide)
    unfold initSharedCache
    simp only [htable, hb]
    rw [if_neg (not_not_intro hm), if_neg hmin, if_neg hfits, if_neg hflat]
  · have hk : i < (assign (metaSize ds) ds).1.length := by omega
    refine ⟨((assign (metaSize ds) ds).1.get ⟨i, hk⟩).2, ?_, ?_⟩
    · have := hrecords i hk
      rwa [Nat.zero_add] at this
    · exact hbetween _ (List.get_mem _ _)

/-- What a flat cache returns lies in the file, at the offset of one of its images. -/
theorem findDylibInCache_flat {c : OpenCache} (hsplit : c.split = none) {path : CStr} {p : Pointer} {size : UInt64}
    (h : findDylibInCache c path = some (p, size)) :
    ∃ i < c.imageCount.toNat, c.address i - c.base < c.file.size ∧
      size.toNat ≤ c.file.size.toNat - (c.address i - c.base).toNat := by
  obtain ⟨i, hi, hloc⟩ := List.exists_of_findSome?_eq_some h
  refine ⟨i, List.mem_range.mp hi, ?_⟩
  split_ifs at hloc
  unfold OpenCache.locate at hloc
  rw [hsplit] at hloc
  simp only at hloc
  split_ifs at hloc with hin
  injection hloc with hloc
  injection hloc with _ hsize
  have hlt : c.address i - c.base < c.file.size := UInt64.not_le.mp hin
  refine ⟨hlt, ?_⟩
  rw [← hsize]
  have hnext : (nextAfter c.file.size (c.address i - c.base) ((c.next i).map (· - c.base))).toNat ≤ c.file.size.toNat ∧
      (c.address i - c.base).toNat ≤ (nextAfter c.file.size (c.address i - c.base) ((c.next i).map (· - c.base))).toNat := by
    unfold nextAfter
    split
    · split_ifs with hn
      · exact ⟨UInt64.le_iff_toNat_le.mp hn.2, (UInt64.lt_iff_toNat_lt.mp hn.1).le⟩
      · exact ⟨le_refl _, (UInt64.lt_iff_toNat_lt.mp hlt).le⟩
    · exact ⟨le_refl _, (UInt64.lt_iff_toNat_lt.mp hlt).le⟩
  rw [UInt64.toNat_sub_of_le _ _ (UInt64.le_iff_toNat_le.mpr hnext.2)]
  omega

/-- `findDylibInCache` returns the file `f` of the set: its bytes, and room for them. -/
def Returned (mapSplit : MappingInfo → MappingInfo → MappingInfo → Option UInt64) (files : List DylibFile)
    (f : DylibFile) : Prop :=
  ∃ c off size, initSharedCache mapSplit (pack files) = some c ∧
    findDylibInCache c f.installName = some (.map off, size) ∧ f.contents.length ≤ size.toNat ∧
    ∀ k < f.contents.length, c.file.bytes (off.toNat + k) = f.contents.getD k 0

/-- The bytes of the files themselves. -/
def filesSize (files : List DylibFile) : Nat := (files.map (·.contents.length)).sum

theorem room_le (ds : List DylibInfo) : room ds ≤ filesSize (ds.map DylibInfo.file) + 4095 * ds.length := by
  induction ds with
  | nil => simp [room, filesSize]
  | cons d ds ih =>
    have := Pages.roundUp_lt d.file.contents.length
    simp only [room_cons, filesSize, List.map_cons, List.sum_cons, List.length_cons] at ih ⊢
    omega

theorem Loaded.filesSize_le (h : Loaded files ds) : filesSize (ds.map DylibInfo.file) ≤ filesSize files :=
  (h.given.map _).sum_le_sum (by simp)

/-- A file that is returned lies below the end of the packed file by less than the
    packed file exceeds half of the packer's base address. -/
theorem Returned.small {mapSplit : MappingInfo → MappingInfo → MappingInfo → Option UInt64} {f : DylibFile}
    (h : Returned mapSplit files f) (hroom : room (loadDylibs files) < 2 ^ 33 - 12288) :
    2 ^ 32 < packedSize (loadDylibs files) ∧ f.contents.length + 2 ^ 33 ≤ 2 * packedSize (loadDylibs files) := by
  have hl := loaded_loadDylibs files
  obtain ⟨hmeta, hpage, hthree⟩ := hl.metaSize_bounds
  obtain ⟨c, off, size, hc, hfind, hlen, -⟩ := h
  obtain ⟨c', hc', hsplit, hsize, hbase, hcount, haddr⟩ := opened mapSplit hl (by omega)
  obtain rfl : c = c' := Option.some.inj (hc.symm.trans hc')
  obtain ⟨i, hi, hlt, hle⟩ := findDylibInCache_flat hsplit hfind
  obtain ⟨o, hao, hlow, hhigh⟩ := haddr i (by omega)
  have hcb : cacheBase.toNat = 2 ^ 33 := rfl
  have hps : packedSize (loadDylibs files) = (metaSize (loadDylibs files)).toNat + room (loadDylibs files) := rfl
  -- the offset dyld computes: the packer's base is still in it
  have hoff : (c.address i - c.base).toNat = 2 ^ 33 + o.toNat - packedSize (loadDylibs files) := by
    have hsum : (cacheBase + o).toNat = 2 ^ 33 + o.toNat := by
      rw [UInt64.toNat_add, hcb]
      omega
    rw [hao, hbase, UInt64.toNat_sub_of_le _ _ (UInt64.le_iff_toNat_le.mpr (by omega)), hsum, hsize]
  rw [UInt64.lt_iff_toNat_lt] at hlt
  omega

end Reader

/-- Of a set of files below 4 GiB, dyld returns every one only when there is none. -/
theorem packed_iff (mapSplit : MappingInfo → MappingInfo → MappingInfo → Option UInt64) (files : List DylibFile)
    (hsize : filesSize files < 2 ^ 32) : (∀ f ∈ files, Returned mapSplit files f) ↔ files = [] := by
  constructor
  · intro hall
    by_contra hne
    obtain ⟨f, hf⟩ := List.exists_mem_of_ne_nil files hne
    have hl := loaded_loadDylibs files
    have hcount : (loadDylibs files).length ≤ 32 := hl.count
    have hthree := hl.metaSize_bounds.2.2
    have hfiles := hl.filesSize_le
    have hroom := room_le (loadDylibs files)
    have hps : packedSize (loadDylibs files) = (metaSize (loadDylibs files)).toNat + room (loadDylibs files) := rfl
    have hbig := ((hall f hf).small (by omega)).1
    -- so every file is small, and 32 small files do not fill 4 GiB
    have hsmall : ∀ n ∈ ((loadDylibs files).map DylibInfo.file).map (·.contents.length), n ≤ 2 ^ 20 := by
      intro n hn
      obtain ⟨g, hg, rfl⟩ := List.mem_map.mp hn
      have := ((hall g (hl.given.subset hg)).small (by omega)).2
      omega
    have hsum := List.sum_le_card_nsmul _ _ hsmall
    simp only [List.length_map, smul_eq_mul] at hsum
    have : filesSize ((loadDylibs files).map DylibInfo.file) ≤ (loadDylibs files).length * 2 ^ 20 := hsum
    omega
  · rintro rfl f hf
    cases hf

/-- A Mach-O file of 64 bytes whose one load command names it `/a`. -/
def libA : DylibFile where
  contents := [0xCF, 0xFA, 0xED, 0xFE, 7, 0, 0, 1, 3, 0, 0, 0, 6, 0, 0, 0, 1, 0, 0, 0, 32, 0, 0, 0, 0, 0, 0, 0, 0, 0, 0, 0,
    0xD, 0, 0, 0, 32, 0, 0, 0, 24, 0, 0, 0, 0, 0, 0, 0, 0, 0, 1, 0, 0, 0, 1, 0, 47, 97, 0, 0, 0, 0, 0, 0]
  mtime := 0
  inode := 1

theorem packed_iff_one_file :
    filesSize [libA] < 2 ^ 32 ∧ ((∀ f ∈ [libA], Returned (fun _ _ _ => none) [libA] f) ↔ [libA] = []) :=
  ⟨by decide, packed_iff _ [libA] (by decide)⟩

/-- Packed alone, it is at 4096 of a file of 8192 bytes; dyld opens the file with 8192
    as its base and looks for the image at `0x200000000 + 4096 - 8192`. -/
theorem packed_file_is_not_found :
    libA.installName = [47, 97] ∧ filesSize [libA] = 64 ∧
    (initSharedCache (fun _ _ _ => none) (pack [libA])).map (fun c => (c.base, c.address 0 - c.base)) =
      some (8192, 0x1FFFFF000) ∧
    (initSharedCache (fun _ _ _ => none) (pack [libA])).map (fun c => (c.path 0, findDylibInCache c [47, 97])) =
      some ([47, 97], none) ∧
    ¬ ∀ f ∈ [libA], Returned (fun _ _ _ => none) [libA] f := by
  have hname : libA.installName = [47, 97] := by decide
  have hfound : (initSharedCache (fun _ _ _ => none) (pack [libA])).map
      (fun c => (c.path 0, findDylibInCache c [47, 97])) = some ([47, 97], none) := by decide
  refine ⟨hname, by decide, by decide, hfound, fun hall => ?_⟩
  obtain ⟨c, off, size, hc, hfind, -⟩ := hall libA List.mem_cons_self
  rw [hname] at hfind
  rw [hc, Option.map_some, hfind] at hfound
  simp at hfound

end Panthera.Cache.Simple
