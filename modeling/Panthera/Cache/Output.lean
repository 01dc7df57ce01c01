/-
  Panthera.Cache.Output — the cache file as it is laid out and filled
  (`build_shared_cache_real.c`: `load_dylib`, `assign_addresses`,
  `copy_segments`, `write_metadata`, and the size that `main` writes).

  `assign_addresses` goes over the segments twice, once for the sizes of the regions and
  once for the places in them. Both passes add the same page-rounded sizes, so that the
  segments of a region lie end to end from its base (`placeSegs_stack`) and fill it.
  Nothing checks the sizes: the regions' bases are constants, 0x60000000 and 0x40000000
  bytes apart, the sums are 64-bit, and `load_dylib` passes over a ninth segment.

  Proved: what is laid out is sound, and every segment's contents are in their slot,
  exactly when the segments fit (`layout_sound_iff`).
-/

import Panthera.Lib.Pages
import Panthera.Lib.Ranges
import Panthera.Cache.Layout

namespace Panthera.Cache

open MachO Lib.Bytes Lib.Pages Lib.Ranges

/-! ## The build -/

/-- A file given to the builder. -/
structure InputFile where
  commands : List LoadCommand
  bytes : List UInt8

/-- `main`'s loop over the paths: a dylib that does not load is left out. The second
    component is what `mapped` points at. -/
def loadDylibs (files : List InputFile) : List (DylibInfo × List UInt8) :=
  files.foldl (fun ds f =>
    match loadDylib f.commands (ds.map (·.1)) with
    | some d => ds ++ [(d, f.bytes)]
    | none => ds) []

def copySegment (R : Regions) (mapped : List UInt8) (m : Mem) (s : SegInfo) : Mem :=
  if s.filesize = 0 then m
  else if R.bufSize < s.cacheFileOff + s.filesize then m
  else put m s.cacheFileOff.toNat ((mapped.drop s.origFileoff.toNat).take s.filesize.toNat)

def copySegments (R : Regions) (ds : List (DylibInfo × List UInt8)) (m : Mem) : Mem :=
  ds.foldl (fun m d => d.1.segs.foldl (copySegment R d.2) m) m

/-- `gSlideInfoSize` after `generate_slide_info_v2`, which leaves the estimate if no
    location was recorded. -/
def slideInfoSize (R : Regions) (numRebaseLocs : Nat) : UInt64 :=
  if numRebaseLocs = 0 then R.slideInfoSize
  else pageAlign (40 + ((R.dataSize + 4095) / 4096).toUInt32.toUInt64 * 2)

/-- `main`'s `gBufSize` when the file is written. -/
def outputSize (R : Regions) (numRebaseLocs : Nat) : UInt64 :=
  let actualSize := R.slideInfoFileOff + slideInfoSize R numRebaseLocs
  if actualSize < R.bufSize then actualSize else R.bufSize

/-! ## `write_metadata` -/

structure MappingInfo where
  address : UInt64
  size : UInt64
  fileOffset : UInt64
  prot : UInt32
  deriving DecidableEq, Repr

structure MappingAndSlideInfo extends MappingInfo where
  slideInfoFileOffset : UInt64
  slideInfoFileSize : UInt64
  deriving DecidableEq, Repr

structure ImageInfo where
  address : UInt64
  pathFileOffset : UInt32
  path : CStr
  deriving DecidableEq, Repr

/-- The header's offsets and counts, and the tables they point at. -/
structure Metadata where
  mappingOffset : UInt32
  mappingWithSlideOffset : UInt32
  imagesOffset : UInt32
  sharedRegionSize : UInt64
  mappings : List MappingInfo
  slideMappings : List MappingAndSlideInfo
  images : List ImageInfo
  deriving DecidableEq, Repr

def Regions.mapping (R : Regions) : Region → MappingInfo
  | .text => ⟨textRegionBase, R.textSize, R.textFileOff, 5⟩
  | .data => ⟨dataRegionBase, R.dataSize, R.dataFileOff, 3⟩
  | .linkedit => ⟨linkRegionBase, R.linkSize, R.linkFileOff, 1⟩

def mappingsOf (R : Regions) : List MappingInfo := [R.mapping .text, R.mapping .data, R.mapping .linkedit]

/-- The loop over the images; `pathCur` is where the next path goes. -/
def imageInfos : UInt32 → List DylibInfo → List ImageInfo
  | _, [] => []
  | pathCur, d :: ds =>
    ⟨d.textSeg.cacheVmaddr, pathCur, d.installName⟩ :: imageInfos (pathCur + UInt32.ofNat (d.installName.length + 1)) ds

def writeMetadata (R : Regions) (numRebaseLocs : Nat) (ds : List DylibInfo) : Metadata :=
  let mappingOff : UInt32 := 512
  let slideMapOff := mappingOff + 3 * 32
  let imagesOff := slideMapOff + 3 * 56
  let pathsOff := imagesOff + UInt32.ofNat ds.length * 32
  let size := slideInfoSize R numRebaseLocs
  { mappingOffset := mappingOff
    mappingWithSlideOffset := slideMapOff
    imagesOffset := imagesOff
    sharedRegionSize := linkRegionBase + R.linkSize - sharedRegionBase
    mappings := mappingsOf R
    slideMappings := (mappingsOf R).zipIdx.map fun m =>
      if m.2 = 1 ∧ 0 < size ∧ 0 < numRebaseLocs then ⟨m.1, R.slideInfoFileOff, size⟩ else ⟨m.1, 0, 0⟩
    images := imageInfos pathsOff ds }

/-! ## Ranges -/

/-- The room that a segment has: whole pages, and one at least. -/
def SegInfo.slotSize (s : SegInfo) : Nat := max 4096 (roundUp s.vmsize.toNat)

def SegInfo.vmSlot (s : SegInfo) : Range := ⟨s.cacheVmaddr.toNat, s.slotSize⟩

def SegInfo.fileSlot (s : SegInfo) : Range := ⟨s.cacheFileOff.toNat, s.slotSize⟩

def MappingInfo.range (m : MappingInfo) : Range := ⟨m.address.toNat, m.size.toNat⟩

/-- The header, the three tables and the paths. -/
def Metadata.ranges (M : Metadata) : List Range :=
  [⟨0, 512⟩, ⟨M.mappingOffset.toNat, 32 * M.mappings.length⟩, ⟨M.mappingWithSlideOffset.toNat, 56 * M.slideMappings.length⟩,
    ⟨M.imagesOffset.toNat, 32 * M.images.length⟩] ++
    M.images.map fun i => ⟨i.pathFileOffset.toNat, i.path.length + 1⟩

/-- The segments of all the dylibs. -/
def allSegs (ds : List DylibInfo) : List SegInfo := ds.flatMap (·.segs)

def fileRanges (R : Regions) (numRebaseLocs : Nat) (ds : List DylibInfo) : List Range :=
  (writeMetadata R numRebaseLocs ds).ranges ++ (allSegs ds).map (·.fileSlot) ++
    [⟨R.slideInfoFileOff.toNat, (slideInfoSize R numRebaseLocs).toNat⟩]

/-- What a cache laid out as `R` and `placed` should be: segments in their mappings and
    apart, mappings apart, parts of the file apart and inside it, and every byte of every
    segment of the dylibs `ds` in its slot. -/
structure LayoutSound (R : Regions) (placed : List DylibInfo) (ds : List (DylibInfo × List UInt8)) (numRebaseLocs : Nat) :
    Prop where
  vm_apart : (allSegs placed).Pairwise fun a b => a.vmSlot.Disjoint b.vmSlot
  vm_inside : ∀ s ∈ allSegs placed, s.vmSlot.Inside (R.mapping s.region).range
  mappings_apart : (mappingsOf R).Pairwise fun a b => a.range.Disjoint b.range
  mappings_inside : ∀ m ∈ mappingsOf R, m.range.Inside ⟨0, 2 ^ 64⟩
  file_apart : (fileRanges R numRebaseLocs placed).Pairwise Range.Disjoint
  file_inside : ∀ r ∈ fileRanges R numRebaseLocs placed, r.Inside ⟨0, (outputSize R numRebaseLocs).toNat⟩
  copied : ∀ (i : Nat) (d : DylibInfo) (bytes : List UInt8), ds[i]? = some (d, bytes) →
    ∀ (k : Nat) (seg : Segment), (segmentsOf d.commands)[k]? = some seg → ∀ x < seg.filesize.toNat,
      ∃ d' s, placed[i]? = some d' ∧ d'.segs[k]? = some s ∧
        copySegments R (placed.zip (ds.map (·.2))) (fun _ => 0) (s.cacheFileOff.toNat + x) =
          bytes.getD (seg.fileoff.toNat + x) 0

/-- The cache that the builder makes of these dylibs is as it should be. -/
def BuildSound (ds : List (DylibInfo × List UInt8)) (numRebaseLocs : Nat) : Prop :=
  LayoutSound (assignAddresses (ds.map (·.1))).1 (assignAddresses (ds.map (·.1))).2 ds numRebaseLocs

/-! ## What the segments need -/

def need (r : Region) (segs : List SegInfo) : Nat := ((segs.filter (·.region = r)).map (·.slotSize)).sum

def metaNeed (ds : List DylibInfo) : Nat :=
  roundUp (1032 + 32 * ds.length + (ds.map fun d => d.installName.length + 1).sum)

def slideNeed (data : Nat) : Nat := roundUp (40 + data / 4096 * 4 + 4096)

def fileNeed (ds : List DylibInfo) : Nat :=
  metaNeed ds + need .text (allSegs ds) + need .data (allSegs ds) + need .linkedit (allSegs ds) +
    slideNeed (need .data (allSegs ds))

/-- The dylibs keep all their segments that have contents, and the regions fit into the
    file and between their bases. -/
structure Fits (ds : List DylibInfo) : Prop where
  kept : ∀ d ∈ ds, ∀ seg ∈ (segmentsOf d.commands).drop maxSegs, seg.filesize = 0
  file : fileNeed ds < 2 ^ 64
  vm : ∀ r, (regionBase r).toNat + need r (allSegs ds) ≤ 2 ^ 64
  text_data : need .text (allSegs ds) ≤ 0x60000000 ∨ need .data (allSegs ds) = 0
  text_link : need .text (allSegs ds) ≤ 0xA0000000 ∨ need .linkedit (allSegs ds) = 0
  data_link : need .data (allSegs ds) ≤ 0x40000000 ∨ need .linkedit (allSegs ds) = 0

/-! ## Page alignment -/

theorem pageAlign_exact {x : UInt64} (h : x.toNat + 4095 < 2 ^ 64) : (pageAlign x).toNat = roundUp x.toNat := toNat_roundUp h

theorem pageAlign_of_mod {x : UInt64} (h : x.toNat % 4096 = 0) : (pageAlign x).toNat = x.toNat := by
  have := x.toNat_lt
  rw [pageAlign_exact (by omega), roundUp_of_mod h]

variable (R : Regions) (l : List SegInfo) (s : SegInfo) (c : Cursors)

theorem slotSize_pos : 4096 ≤ s.slotSize := Nat.le_max_left _ _

theorem vmsize_le_slotSize : s.vmsize.toNat ≤ s.slotSize :=
  Nat.le_trans (le_roundUp _) (Nat.le_max_right _ _)

variable {s : SegInfo} {r : Region} {ds : List DylibInfo} {d : DylibInfo}

theorem allocSize_exact (h : s.slotSize < 2 ^ 64) : s.allocSize.toNat = s.slotSize := by
  have hr : roundUp s.vmsize.toNat < 2 ^ 64 := Nat.lt_of_le_of_lt (Nat.le_max_right _ _) h
  have hx : s.vmsize.toNat + 4095 < 2 ^ 64 := by
    unfold roundUp at hr
    omega
  have hpage := pageAlign_exact hx
  have hmod := roundUp_mod s.vmsize.toNat
  unfold SegInfo.allocSize SegInfo.slotSize
  split
  · rename_i h0
    rw [h0] at hpage
    rw [← hpage]
    rfl
  · rename_i h0
    have hne : (pageAlign s.vmsize).toNat ≠ 0 := fun hz => h0 (UInt64.toNat_inj.mp hz)
    rw [hpage] at hne ⊢
    omega

/-! ## Placement -/

/-- The segment as it was loaded. -/
def SegInfo.unplaced (s : SegInfo) : SegInfo := { s with cacheFileOff := 0, cacheVmaddr := 0 }

@[simp] theorem unplaced_region (s : SegInfo) : s.unplaced.region = s.region := rfl

@[simp] theorem unplaced_slotSize (s : SegInfo) : s.unplaced.slotSize = s.slotSize := rfl

section Place

variable (R : Regions)

theorem placeSegs_append : ∀ (l l' : List SegInfo) (c : Cursors), placeSegs R c (l ++ l') =
    ((placeSegs R (placeSegs R c l).1 l').1, (placeSegs R c l).2 ++ (placeSegs R (placeSegs R c l).1 l').2) := by
  intro l
  induction l with
  | nil => intro l' c; rfl
  | cons s l ih =>
    intro l' c
    simp only [List.cons_append, placeSegs, ih]

theorem placeDylibs_segs : ∀ (ds : List DylibInfo) (c : Cursors),
    (placeDylibs R c ds).flatMap (·.segs) = (placeSegs R c (ds.flatMap (·.segs))).2 := by
  intro ds
  induction ds with
  | nil => intro c; rfl
  | cons d ds ih =>
    intro c
    simp only [placeDylibs, List.flatMap_cons, ih, placeSegs_append]

theorem assigned_regions (ds : List DylibInfo) : (assignAddresses ds).1 = regionsOf ds := rfl

theorem assigned_segs (ds : List DylibInfo) :
    allSegs (assignAddresses ds).2 = (placeSegs (regionsOf ds) ⟨0, 0, 0⟩ (allSegs ds)).2 := placeDylibs_segs _ _ _

theorem placeSegs_unplaced : ∀ (l : List SegInfo) (c : Cursors),
    (placeSegs R c l).2.map (·.unplaced) = l.map (·.unplaced) := by
  intro l
  induction l with
  | nil => intro c; rfl
  | cons s l ih =>
    intro c
    simp only [placeSegs, List.map_cons, ih]
    rfl

theorem placeDylibs_unplaced : ∀ (ds : List DylibInfo) (c : Cursors),
    (placeDylibs R c ds).map (fun d => (d.installName, d.segs.map (·.unplaced))) =
      ds.map fun d => (d.installName, d.segs.map (·.unplaced)) := by
  intro ds
  induction ds with
  | nil => intro c; rfl
  | cons d ds ih =>
    intro c
    simp only [placeDylibs, List.map_cons, ih, placeSegs_unplaced]

variable {R}

theorem need_cons (r : Region) (s : SegInfo) (l : List SegInfo) :
    need r (s :: l) = if s.region = r then s.slotSize + need r l else need r l := by
  unfold need
  by_cases h : s.region = r <;> simp [h]

/-- The cursor of a region after its segments. -/
theorem get_foldl_advance (r : Region) : ∀ {l : List SegInfo} {c : Cursors}, (c.get r).toNat + need r l < 2 ^ 64 →
    ((l.foldl (fun c s => c.advance s.allocSize s.region) c).get r).toNat = (c.get r).toNat + need r l := by
  intro l
  induction l with
  | nil => intro c _; rfl
  | cons s l ih =>
    intro c h
    rw [need_cons] at h ⊢
    by_cases hr : s.region = r
    · rw [if_pos hr] at h ⊢
      have hnext : ((c.advance s.allocSize s.region).get r).toNat = (c.get r).toNat + s.slotSize := by
        rw [get_advance, if_pos hr, UInt64.toNat_add, allocSize_exact (by omega)]
        omega
      rw [List.foldl_cons, ih (by omega), hnext]
      omega
    · rw [if_neg hr] at h ⊢
      have hnext : (c.advance s.allocSize s.region).get r = c.get r := by rw [get_advance, if_neg hr]
      rw [List.foldl_cons, ih (by rwa [hnext]), hnext]

/-- The segments of a region lie end to end from its base `B`, in the file and in memory. -/
theorem placeSegs_stack {B : UInt64} (addr : SegInfo → UInt64)
    (haddr : ∀ (s : SegInfo) (off : UInt64), s.region = r →
      addr { s with cacheFileOff := R.fileOff s.region + off, cacheVmaddr := regionBase s.region + off } = B + off) :
    ∀ {l : List SegInfo} {c : Cursors}, B.toNat + (c.get r).toNat + need r l ≤ 2 ^ 64 → (c.get r).toNat + need r l < 2 ^ 64 →
    ((placeSegs R c l).2.filter (·.region = r)).map (fun s => (⟨(addr s).toNat, s.slotSize⟩ : Range)) =
      stack (B.toNat + (c.get r).toNat) ((l.filter (·.region = r)).map (·.slotSize)) := by
  intro l
  induction l with
  | nil => intro c _ _; rfl
  | cons s l ih =>
    intro c hB h
    rw [need_cons] at h hB
    let s' : SegInfo :=
      { s with cacheFileOff := R.fileOff s.region + c.get s.region, cacheVmaddr := regionBase s.region + c.get s.region }
    show ((s' :: (placeSegs R (c.advance s.allocSize s.region) l).2).filter (·.region = r)).map _ = _
    by_cases hr : s.region = r
    · have hr' : s'.region = r := hr
      have hpos := slotSize_pos s
      rw [if_pos hr] at h hB
      have hnext : ((c.advance s.allocSize s.region).get r).toNat = (c.get r).toNat + s.slotSize := by
        rw [get_advance, if_pos hr, UInt64.toNat_add, allocSize_exact (by omega)]
        omega
      have hstart : (addr s').toNat = B.toNat + (c.get r).toNat := by
        rw [haddr s _ hr, hr, UInt64.toNat_add]
        omega
      rw [List.filter_cons_of_pos (by simpa using hr'), List.filter_cons_of_pos (by simpa using hr), List.map_cons,
        List.map_cons, stack, ih (by omega) (by omega), hnext, hstart, Nat.add_assoc]
      rfl
    · have hr' : ¬ s'.region = r := hr
      rw [if_neg hr] at h hB
      have hnext : (c.advance s.allocSize s.region).get r = c.get r := by rw [get_advance, if_neg hr]
      rw [List.filter_cons_of_neg (by simpa using hr'), List.filter_cons_of_neg (by simpa using hr),
        ih (by rwa [hnext]) (by rwa [hnext]), hnext]

end Place

/-! ## The regions -/

theorem slotSize_mod (s : SegInfo) : s.slotSize % 4096 = 0 := by
  have := roundUp_mod s.vmsize.toNat
  unfold SegInfo.slotSize
  omega

theorem need_mod (r : Region) (l : List SegInfo) : need r l % 4096 = 0 := by
  induction l with
  | nil => rfl
  | cons s l ih =>
    have := slotSize_mod s
    rw [need_cons]
    split <;> omega

/-- As many dylibs as the builder takes, with names that fit `installName`. -/
structure Limited (ds : List DylibInfo) : Prop where
  count : ds.length ≤ 32
  names : ∀ d ∈ ds, d.installName.length ≤ 255

section Regions

variable {ds : List DylibInfo} (hlim : Limited ds)

theorem sum_names_le (hlim : Limited ds) : (ds.map fun d => d.installName.length + 1).sum ≤ 256 * ds.length := by
  have h := List.sum_le_card_nsmul (ds.map fun d => d.installName.length + 1) 256 fun n hn => by
    obtain ⟨d, hd, rfl⟩ := List.mem_map.mp hn
    have := hlim.names d hd
    omega
  simpa [Nat.mul_comm] using h

theorem pathsSize_exact (hlim : Limited ds) : (pathsSize ds).toNat = (ds.map fun d => d.installName.length + 1).sum := by
  have hfold : ∀ (l : List DylibInfo) (n : UInt64), n.toNat + (l.map fun d => d.installName.length + 1).sum < 2 ^ 64 →
      (l.foldl (fun n d => n + UInt64.ofNat (d.installName.length + 1)) n).toNat =
        n.toNat + (l.map fun d => d.installName.length + 1).sum := by
    intro l
    induction l with
    | nil => intro n _; rfl
    | cons d l ih =>
      intro n h
      rw [List.map_cons, List.sum_cons] at h ⊢
      have hnext : (n + UInt64.ofNat (d.installName.length + 1)).toNat = n.toNat + (d.installName.length + 1) := by
        rw [UInt64.toNat_add, UInt64.toNat_ofNat']
        omega
      rw [List.foldl_cons, ih _ (by omega), hnext]
      omega
  have hsum := sum_names_le hlim
  have hcount := hlim.count
  rw [pathsSize, hfold ds 0 (by simp only [UInt64.toNat_zero]; omega)]
  simp

include hlim

theorem metaSize_exact : (regionsOf ds).metaSize.toNat = metaNeed ds ∧ metaNeed ds ≤ 16384 := by
  have hsum := sum_names_le hlim
  have hcount := hlim.count
  have hpaths := pathsSize_exact hlim
  have hx : (512 + 3 * 32 + 3 * 56 + UInt64.ofNat ds.length * 32 + pathsSize ds + 256 : UInt64).toNat =
      1032 + 32 * ds.length + (ds.map fun d => d.installName.length + 1).sum := by
    have h512 : (512 + 3 * 32 + 3 * 56 : UInt64).toNat = 776 := rfl
    have h32 : (UInt64.ofNat ds.length * 32).toNat = ds.length * 32 := by
      rw [UInt64.toNat_mul, UInt64.toNat_ofNat', show (32 : UInt64).toNat = 32 from rfl]
      omega
    rw [UInt64.toNat_add, UInt64.toNat_add, UInt64.toNat_add, h512, h32, hpaths, show (256 : UInt64).toNat = 256 from rfl]
    omega
  refine ⟨?_, ?_⟩
  · show (pageAlign _).toNat = _
    rw [pageAlign_exact (by rw [hx]; omega), hx]
    rfl
  · have := roundUp_lt (1032 + 32 * ds.length + (ds.map fun d => d.installName.length + 1).sum)
    unfold metaNeed
    omega

omit hlim

theorem size_exact (h : need r (allSegs ds) < 2 ^ 64) : ((regionsOf ds).mapping r).size.toNat = need r (allSegs ds) := by
  have hcur : ((totals ds).get r).toNat = need r (allSegs ds) := by
    have hzero : ((⟨0, 0, 0⟩ : Cursors).get r).toNat = 0 := by cases r <;> rfl
    rw [totals, get_foldl_advance r (by rw [hzero]; simpa [allSegs] using h), hzero, Nat.zero_add]
    rfl
  have hsize : ((regionsOf ds).mapping r).size = pageAlign ((totals ds).get r) := by cases r <;> rfl
  rw [hsize, pageAlign_of_mod (by rw [hcur]; exact need_mod _ _), hcur]

theorem slideInfoSize_exact (h : need .data (allSegs ds) < 2 ^ 64) :
    (regionsOf ds).slideInfoSize.toNat = slideNeed (need .data (allSegs ds)) ∧ slideNeed (need .data (allSegs ds)) ≤ 2 ^ 55 := by
  have hsize : (pageAlign (totals ds).data).toNat = need .data (allSegs ds) := size_exact (r := .data) h
  have hmod := need_mod .data (allSegs ds)
  have hpages : ((pageAlign (totals ds).data + 4095) / 4096).toNat = need .data (allSegs ds) / 4096 := by
    rw [UInt64.toNat_div, UInt64.toNat_add, hsize, show (4095 : UInt64).toNat = 4095 from rfl,
      show (4096 : UInt64).toNat = 4096 from rfl]
    omega
  have hx : (40 + (pageAlign (totals ds).data + 4095) / 4096 * 2 * 2 + 4096 : UInt64).toNat =
      40 + need .data (allSegs ds) / 4096 * 4 + 4096 := by
    rw [UInt64.toNat_add, UInt64.toNat_add, UInt64.toNat_mul, UInt64.toNat_mul, hpages, show (40 : UInt64).toNat = 40 from rfl,
      show (2 : UInt64).toNat = 2 from rfl, show (4096 : UInt64).toNat = 4096 from rfl]
    omega
  refine ⟨?_, ?_⟩
  · show (pageAlign _).toNat = _
    rw [pageAlign_exact (by rw [hx]; omega), hx]
    rfl
  · have := roundUp_lt (40 + need .data (allSegs ds) / 4096 * 4 + 4096)
    unfold slideNeed
    omega

/-- The buffer's size, with the carry that a 64-bit sum loses. -/
theorem bufSize_mod (hlim : Limited ds) (h : ∀ r, need r (allSegs ds) < 2 ^ 64) :
    (regionsOf ds).bufSize.toNat = fileNeed ds % 2 ^ 64 := by
  have htext : (pageAlign (totals ds).text).toNat = _ := size_exact (h .text)
  have hdata : (pageAlign (totals ds).data).toNat = _ := size_exact (h .data)
  have hlink : (pageAlign (totals ds).link).toNat = _ := size_exact (h .linkedit)
  have hslide := (slideInfoSize_exact (h .data)).1
  have hmeta := (metaSize_exact hlim).1
  have hbuf : (regionsOf ds).bufSize = (regionsOf ds).metaSize + pageAlign (totals ds).text + pageAlign (totals ds).data +
      pageAlign (totals ds).link + (regionsOf ds).slideInfoSize := rfl
  rw [hbuf]
  simp only [UInt64.toNat_add, hmeta, htext, hdata, hlink, hslide]
  unfold fileNeed allSegs
  omega

/-- The regions as they are when nothing overflows. -/
structure Exact (R : Regions) (ds : List DylibInfo) : Prop where
  size : ∀ r, (R.mapping r).size.toNat = need r (allSegs ds)
  textOff : R.textFileOff.toNat = metaNeed ds
  dataOff : R.dataFileOff.toNat = metaNeed ds + need .text (allSegs ds)
  linkOff : R.linkFileOff.toNat = metaNeed ds + need .text (allSegs ds) + need .data (allSegs ds)
  slideOff : R.slideInfoFileOff.toNat =
    metaNeed ds + need .text (allSegs ds) + need .data (allSegs ds) + need .linkedit (allSegs ds)
  slideSize : R.slideInfoSize.toNat = slideNeed (need .data (allSegs ds))
  bufSize : R.bufSize.toNat = fileNeed ds

theorem regionsOf_exact (hlim : Limited ds) (h : fileNeed ds < 2 ^ 64) : Exact (regionsOf ds) ds := by
  have hsum : fileNeed ds = metaNeed ds + need .text (allSegs ds) + need .data (allSegs ds) + need .linkedit (allSegs ds) +
      slideNeed (need .data (allSegs ds)) := rfl
  have hneed : ∀ r, need r (allSegs ds) < 2 ^ 64 := fun r => by
    cases r <;> omega
  have htext : (pageAlign (totals ds).text).toNat = _ := size_exact (hneed .text)
  have hdata : (pageAlign (totals ds).data).toNat = _ := size_exact (hneed .data)
  have hlink : (pageAlign (totals ds).link).toNat = _ := size_exact (hneed .linkedit)
  have hmeta := (metaSize_exact hlim).1
  have hdataOff : (regionsOf ds).dataFileOff.toNat = metaNeed ds + need .text (allSegs ds) := by
    show ((regionsOf ds).metaSize + pageAlign (totals ds).text).toNat = _
    rw [UInt64.toNat_add, hmeta, htext]
    omega
  have hlinkOff : (regionsOf ds).linkFileOff.toNat = metaNeed ds + need .text (allSegs ds) + need .data (allSegs ds) := by
    show ((regionsOf ds).dataFileOff + pageAlign (totals ds).data).toNat = _
    rw [UInt64.toNat_add, hdataOff, hdata]
    omega
  refine ⟨fun r => size_exact (hneed r), hmeta, hdataOff, hlinkOff, ?_, (slideInfoSize_exact (hneed .data)).1, ?_⟩
  · show ((regionsOf ds).linkFileOff + pageAlign (totals ds).link).toNat = _
    rw [UInt64.toNat_add, hlinkOff, hlink]
    omega
  · rw [bufSize_mod hlim hneed, Nat.mod_eq_of_lt h]

end Regions

/-! ## The metadata -/

theorem imageInfos_length (ds : List DylibInfo) : ∀ cur, (imageInfos cur ds).length = ds.length := by
  induction ds with
  | nil => intro cur; rfl
  | cons d ds ih => intro cur; simp [imageInfos, ih]

theorem imageInfos_stack : ∀ (ds : List DylibInfo) (cur : UInt32),
    cur.toNat + (ds.map fun d => d.installName.length + 1).sum < 2 ^ 32 →
    (imageInfos cur ds).map (fun i => (⟨i.pathFileOffset.toNat, i.path.length + 1⟩ : Range)) =
      stack cur.toNat (ds.map fun d => d.installName.length + 1) := by
  intro ds
  induction ds with
  | nil => intro cur _; rfl
  | cons d ds ih =>
    intro cur h
    rw [List.map_cons, List.sum_cons] at h
    have hnext : (cur + UInt32.ofNat (d.installName.length + 1)).toNat = cur.toNat + (d.installName.length + 1) := by
      rw [UInt32.toNat_add, UInt32.toNat_ofNat']
      omega
    rw [imageInfos, List.map_cons, List.map_cons, stack, ih _ (by omega), hnext]

theorem metadata_stack (hlim : Limited ds) (R : Regions) (numRebaseLocs : Nat) :
    (writeMetadata R numRebaseLocs ds).ranges =
      stack 0 ([512, 96, 168, 32 * ds.length] ++ ds.map fun d => d.installName.length + 1) := by
  have hsum := sum_names_le hlim
  have hcount := hlim.count
  have hpaths : (776 + UInt32.ofNat ds.length * 32 : UInt32).toNat = 776 + 32 * ds.length := by
    rw [UInt32.toNat_add, UInt32.toNat_mul, UInt32.toNat_ofNat', show (776 : UInt32).toNat = 776 from rfl,
      show (32 : UInt32).toNat = 32 from rfl]
    omega
  have himages := imageInfos_stack ds (776 + UInt32.ofNat ds.length * 32) (by rw [hpaths]; omega)
  rw [hpaths] at himages
  rw [stack_append]
  show _ ++ (imageInfos (776 + UInt32.ofNat ds.length * 32) ds).map _ = _
  rw [himages]
  have hlen : (writeMetadata R numRebaseLocs ds).images.length = ds.length := imageInfos_length ds _
  have hstart : 512 + (96 + (168 + 32 * ds.length)) = 776 + 32 * ds.length := by omega
  rw [hlen]
  simp [stack, writeMetadata, mappingsOf, hstart]

theorem metadata_inside (hlim : Limited ds) {R : Regions} {numRebaseLocs : Nat} {r : Range}
    (h : r ∈ (writeMetadata R numRebaseLocs ds).ranges) : r.Inside ⟨0, metaNeed ds⟩ := by
  rw [metadata_stack hlim] at h
  refine (stack_inside h).trans (Range.inside_of_le (Nat.le_refl _) ?_)
  have := le_roundUp (1032 + 32 * ds.length + (ds.map fun d => d.installName.length + 1).sum)
  simp only [List.cons_append, List.nil_append, List.sum_cons]
  unfold metaNeed
  omega

/-! ## The slots -/

/-- The placed dylibs have the names of the loaded ones. -/
theorem placeDylibs_names (ds : List DylibInfo) (c : Cursors) :
    (placeDylibs R c ds).map (·.installName) = ds.map (·.installName) := by
  simpa [Function.comp_def] using congrArg (List.map Prod.fst) (placeDylibs_unplaced R ds c)

theorem placeDylibs_length (ds : List DylibInfo) (c : Cursors) : (placeDylibs R c ds).length = ds.length := by
  simpa using congrArg List.length (placeDylibs_names R ds c)

theorem Limited.placed (hlim : Limited ds) (R : Regions) (c : Cursors) : Limited (placeDylibs R c ds) := by
  refine ⟨(placeDylibs_length R ds c).symm ▸ hlim.count, fun d' hd' => ?_⟩
  have hmem : d'.installName ∈ ds.map (·.installName) := placeDylibs_names R ds c ▸ List.mem_map_of_mem hd'
  obtain ⟨d, hd, hname⟩ := List.mem_map.mp hmem
  exact hname ▸ hlim.names d hd

theorem metaNeed_placed (ds : List DylibInfo) (c : Cursors) : metaNeed (placeDylibs R c ds) = metaNeed ds := by
  have hnames := congrArg (List.map fun n : CStr => n.length + 1) (placeDylibs_names R ds c)
  rw [List.map_map, List.map_map] at hnames
  unfold metaNeed
  rw [placeDylibs_length]
  exact congrArg (fun l : List Nat => roundUp (1032 + 32 * ds.length + l.sum)) hnames

section Slots

variable {ds : List DylibInfo}

theorem vm_stack (h : (regionBase r).toNat + need r (allSegs ds) ≤ 2 ^ 64) :
    ((allSegs (assignAddresses ds).2).filter (·.region = r)).map (·.vmSlot) =
      stack (regionBase r).toNat (((allSegs ds).filter (·.region = r)).map (·.slotSize)) := by
  have hbase : 0 < (regionBase r).toNat := by cases r <;> decide
  have hzero : ((⟨0, 0, 0⟩ : Cursors).get r).toNat = 0 := by cases r <;> rfl
  have hstack := placeSegs_stack (R := regionsOf ds) (r := r) (B := regionBase r) (·.cacheVmaddr)
    (fun s off hr => by rw [← hr]) (l := allSegs ds) (c := ⟨0, 0, 0⟩) (by omega) (by omega)
  rw [hzero, Nat.add_zero] at hstack
  rw [assigned_segs, ← hstack]
  rfl

variable (hlim : Limited ds) (hfile : fileNeed ds < 2 ^ 64)

theorem fileOff_exact (hlim : Limited ds) (hfile : fileNeed ds < 2 ^ 64) (r : Region) :
    ((regionsOf ds).fileOff r).toNat + need r (allSegs ds) ≤ (regionsOf ds).slideInfoFileOff.toNat ∧
    metaNeed ds ≤ ((regionsOf ds).fileOff r).toNat := by
  have hR := regionsOf_exact hlim hfile
  rw [hR.slideOff]
  cases r with
  | text => simp only [Regions.fileOff, hR.textOff]; omega
  | data => simp only [Regions.fileOff, hR.dataOff]; omega
  | linkedit => simp only [Regions.fileOff, hR.linkOff]; omega

include hlim hfile

theorem file_stack (r : Region) :
    ((allSegs (assignAddresses ds).2).filter (·.region = r)).map (·.fileSlot) =
      stack ((regionsOf ds).fileOff r).toNat (((allSegs ds).filter (·.region = r)).map (·.slotSize)) := by
  have hzero : ((⟨0, 0, 0⟩ : Cursors).get r).toNat = 0 := by cases r <;> rfl
  have hoff := (fileOff_exact hlim hfile r).1
  have hlt := (regionsOf ds).slideInfoFileOff.toNat_lt
  have hstack := placeSegs_stack (R := regionsOf ds) (r := r) (B := (regionsOf ds).fileOff r) (·.cacheFileOff)
    (fun s off hr => by rw [← hr]) (l := allSegs ds) (c := ⟨0, 0, 0⟩) (by omega) (by omega)
  rw [hzero, Nat.add_zero] at hstack
  rw [assigned_segs, ← hstack]
  rfl

theorem file_disjoint (r r' : Region) (hne : r ≠ r') :
    Range.Disjoint ⟨((regionsOf ds).fileOff r).toNat, need r (allSegs ds)⟩
      ⟨((regionsOf ds).fileOff r').toNat, need r' (allSegs ds)⟩ := by
  have hR := regionsOf_exact hlim hfile
  rw [Range.disjoint_iff]
  cases r <;> cases r' <;> simp only [Regions.fileOff, hR.textOff, hR.dataOff, hR.linkOff, ne_eq, not_true_eq_false] at hne ⊢ <;>
    omega

theorem fileSlot_inside (hs : s ∈ allSegs (assignAddresses ds).2) :
    metaNeed ds ≤ s.cacheFileOff.toNat ∧ s.cacheFileOff.toNat + s.slotSize ≤ (regionsOf ds).slideInfoFileOff.toNat := by
  have hin := keyed_inside (file_stack hlim hfile) hs
  have hpos := slotSize_pos s
  have hle := (Range.inside_iff (show 0 < s.fileSlot.size from Nat.lt_of_lt_of_le (by decide) hpos)).mp hin
  have hoff := fileOff_exact hlim hfile s.region
  have hneed : need s.region (allSegs ds) = (((allSegs ds).filter (·.region = s.region)).map (·.slotSize)).sum := rfl
  simp only [SegInfo.fileSlot] at hle
  omega

/-- The slide info as it is written needs no more than was estimated. -/
theorem slideInfoSize_le (numRebaseLocs : Nat) :
    (slideInfoSize (regionsOf ds) numRebaseLocs).toNat ≤ slideNeed (need .data (allSegs ds)) := by
  have hR := regionsOf_exact hlim hfile
  have hneed : need .data (allSegs ds) < 2 ^ 64 := hR.size .data ▸ UInt64.toNat_lt _
  have hdata : (regionsOf ds).dataSize.toNat = need .data (allSegs ds) := hR.size .data
  unfold slideInfoSize
  split
  · exact Nat.le_of_eq hR.slideSize
  · have hmod := need_mod .data (allSegs ds)
    have hpages : (((regionsOf ds).dataSize + 4095) / 4096).toUInt32.toUInt64.toNat ≤ need .data (allSegs ds) / 4096 := by
      rw [UInt32.toNat_toUInt64, UInt64.toNat_toUInt32, UInt64.toNat_div, UInt64.toNat_add, hdata,
        show (4095 : UInt64).toNat = 4095 from rfl, show (4096 : UInt64).toNat = 4096 from rfl]
      omega
    generalize (((regionsOf ds).dataSize + 4095) / 4096).toUInt32.toUInt64 = pages at hpages
    have hx : (40 + pages * 2 : UInt64).toNat = 40 + pages.toNat * 2 := by
      rw [UInt64.toNat_add, UInt64.toNat_mul, show (40 : UInt64).toNat = 40 from rfl, show (2 : UInt64).toNat = 2 from rfl]
      omega
    rw [pageAlign_exact (by rw [hx]; omega), hx]
    unfold slideNeed roundUp
    omega

theorem outputSize_exact (numRebaseLocs : Nat) : (outputSize (regionsOf ds) numRebaseLocs).toNat =
    (regionsOf ds).slideInfoFileOff.toNat + (slideInfoSize (regionsOf ds) numRebaseLocs).toNat := by
  have hR := regionsOf_exact hlim hfile
  have hle := slideInfoSize_le hlim hfile numRebaseLocs
  have hbuf : (regionsOf ds).bufSize.toNat = (regionsOf ds).slideInfoFileOff.toNat + slideNeed (need .data (allSegs ds)) := by
    rw [hR.bufSize, hR.slideOff]
    rfl
  have hsum : ((regionsOf ds).slideInfoFileOff + slideInfoSize (regionsOf ds) numRebaseLocs).toNat =
      (regionsOf ds).slideInfoFileOff.toNat + (slideInfoSize (regionsOf ds) numRebaseLocs).toNat := by
    have := (regionsOf ds).bufSize.toNat_lt
    rw [UInt64.toNat_add]
    omega
  simp only [outputSize]
  split
  · exact hsum
  · rename_i hlt
    rw [UInt64.lt_iff_toNat_lt, hsum] at hlt
    omega

end Slots

/-! ## The copies -/

/-- What `copy_segments` writes for a segment. -/
def contents (R : Regions) (mapped : List UInt8) (s : SegInfo) : List UInt8 :=
  if s.filesize = 0 then []
  else if R.bufSize < s.cacheFileOff + s.filesize then []
  else (mapped.drop s.origFileoff.toNat).take s.filesize.toNat

theorem contents_length (mapped : List UInt8) (s : SegInfo) : (contents R mapped s).length ≤ s.filesize.toNat := by
  unfold contents
  split
  · simp
  · split <;> simp

theorem copySegment_eq (mapped : List UInt8) (m : Mem) (s : SegInfo) :
    copySegment R mapped m s = put m s.cacheFileOff.toNat (contents R mapped s) := by
  unfold copySegment contents
  split
  · simp
  · split <;> simp

/-- The segments, each with the file it comes from. -/
def sources (ds : List (DylibInfo × List UInt8)) : List (SegInfo × List UInt8) :=
  ds.flatMap fun d => d.1.segs.map fun s => (s, d.2)

def writes (R : Regions) (ds : List (DylibInfo × List UInt8)) : List (Nat × List UInt8) :=
  (sources ds).map fun p => (p.1.cacheFileOff.toNat, contents R p.2 p.1)

theorem copySegments_eq (ds : List (DylibInfo × List UInt8)) (m : Mem) :
    copySegments R ds m = (writes R ds).foldl (fun m w => put m w.1 w.2) m := by
  have hcopy : ∀ mapped, copySegment R mapped = fun m s => put m s.cacheFileOff.toNat (contents R mapped s) :=
    fun mapped => funext fun m => funext (copySegment_eq R mapped m)
  simp only [copySegments, writes, sources, List.foldl_map, List.foldl_flatMap, hcopy]

theorem sources_fst (placed : List DylibInfo) {files : List (List UInt8)} (h : placed.length ≤ files.length) :
    (sources (placed.zip files)).map (·.1) = allSegs placed := by
  have hzip := List.map_fst_zip h
  conv_rhs => rw [allSegs, ← hzip, List.flatMap_map]
  simp [sources, List.map_flatMap, Function.comp_def]

/-- A dylib as `load_dylib` leaves it, with segments that are inside their file and no
    larger there than in memory. -/
structure Sized (p : DylibInfo × List UInt8) : Prop where
  segs_eq : p.1.segs = ((segmentsOf p.1.commands).take maxSegs).map SegInfo.load
  name_le : p.1.installName.length ≤ 255
  sized : ∀ seg ∈ segmentsOf p.1.commands,
    seg.filesize ≤ seg.vmsize ∧ seg.fileoff.toNat + seg.filesize.toNat ≤ p.2.length

section Copies

variable {ds : List (DylibInfo × List UInt8)} (hsized : ∀ p ∈ ds, Sized p)

theorem assigned_unplaced (ds : List DylibInfo) :
    (allSegs (assignAddresses ds).2).map (·.unplaced) = (allSegs ds).map (·.unplaced) := by
  rw [assigned_segs, placeSegs_unplaced]

/-- The dylib at an index, after placement. -/
theorem assigned_getElem {ds : List DylibInfo} {i : Nat} (h : ds[i]? = some d) :
    ∃ d', (assignAddresses ds).2[i]? = some d' ∧ d'.segs.map (·.unplaced) = d.segs.map (·.unplaced) := by
  have hidx := congrArg (·[i]?) (placeDylibs_unplaced (regionsOf ds) ds ⟨0, 0, 0⟩)
  simp only [List.getElem?_map, h, Option.map_some, Option.map_eq_some_iff, Prod.mk.injEq] at hidx
  obtain ⟨d', hd', -, hsegs⟩ := hidx
  exact ⟨d', hd', hsegs⟩

include hsized

theorem filesize_le (hs : s ∈ allSegs (assignAddresses (ds.map (·.1))).2) : s.filesize.toNat ≤ s.slotSize := by
  have hmem : s.unplaced ∈ (allSegs (ds.map (·.1))).map (·.unplaced) := assigned_unplaced _ ▸ List.mem_map_of_mem hs
  obtain ⟨s0, hs0, heq⟩ := List.mem_map.mp hmem
  obtain ⟨d, hd, hsd⟩ := List.mem_flatMap.mp hs0
  obtain ⟨p, hp, rfl⟩ := List.mem_map.mp hd
  rw [(hsized p hp).segs_eq] at hsd
  obtain ⟨seg, hseg, rfl⟩ := List.mem_map.mp hsd
  have hle := ((hsized p hp).sized seg (List.mem_of_mem_take hseg)).1
  have hfile : s.filesize = seg.filesize := (congrArg SegInfo.filesize heq).symm
  have hvm : s.vmsize = seg.vmsize := (congrArg SegInfo.vmsize heq).symm
  rw [hfile]
  exact Nat.le_trans (UInt64.le_iff_toNat_le.mp hle) (hvm ▸ vmsize_le_slotSize s)

/-- A segment among the first eight, after placement. -/
theorem assigned_seg {i : Nat} {bytes : List UInt8} (hd : ds[i]? = some (d, bytes))
    {k : Nat} {seg : Segment} (hseg : (segmentsOf d.commands)[k]? = some seg) (hk : k < maxSegs) :
    ∃ d' s, (assignAddresses (ds.map (·.1))).2[i]? = some d' ∧ d'.segs[k]? = some s ∧ s.unplaced = SegInfo.load seg := by
  have hsegs : d.segs = _ := (hsized _ (List.mem_of_getElem? hd)).segs_eq
  obtain ⟨d', hd', heq⟩ := assigned_getElem (d := d) (i := i) (show (ds.map (·.1))[i]? = some d by simp [hd])
  have hs : (d'.segs.map (·.unplaced))[k]? = some (SegInfo.load seg) := by
    rw [heq, hsegs]
    simp [List.getElem?_take_of_lt hk, hseg, SegInfo.load, SegInfo.unplaced]
  obtain ⟨s, hs, hload⟩ := Option.map_eq_some_iff.mp (List.getElem?_map .. ▸ hs)
  exact ⟨d', s, hd', hs, hload⟩

theorem writes_apart
    (hapart : (allSegs (assignAddresses (ds.map (·.1))).2).Pairwise fun a b => a.fileSlot.Disjoint b.fileSlot) (R : Regions) :
    (writes R ((assignAddresses (ds.map (·.1))).2.zip (ds.map (·.2)))).Pairwise
      fun v w => Range.Disjoint ⟨v.1, v.2.length⟩ ⟨w.1, w.2.length⟩ := by
  have hfst : (sources ((assignAddresses (ds.map (·.1))).2.zip (ds.map (·.2)))).map (·.1) = _ :=
    sources_fst _ (by rw [assignAddresses, placeDylibs_length]; simp)
  have hwithin : ∀ p ∈ sources ((assignAddresses (ds.map (·.1))).2.zip (ds.map (·.2))),
      Range.Inside ⟨p.1.cacheFileOff.toNat, (contents R p.2 p.1).length⟩ p.1.fileSlot := by
    intro p hp
    have hle := filesize_le hsized (hfst ▸ List.mem_map_of_mem hp : p.1 ∈ _)
    have := contents_length R p.2 p.1
    exact Range.inside_of_le (Nat.le_refl _) (by simp only [SegInfo.fileSlot]; omega)
  rw [← hfst, List.pairwise_map] at hapart
  exact List.pairwise_map.mpr
    (hapart.imp_of_mem fun {p q} hp hq hpq => hpq.mono (hwithin p hp) (hwithin q hq))

variable (hlim : Limited (ds.map (·.1))) (hfile : fileNeed (ds.map (·.1)) < 2 ^ 64)

include hlim hfile

/-- No segment is left out for want of room. -/
theorem contents_eq (hs : s ∈ allSegs (assignAddresses (ds.map (·.1))).2) (mapped : List UInt8) :
    contents (regionsOf (ds.map (·.1))) mapped s = (mapped.drop s.origFileoff.toNat).take s.filesize.toNat := by
  have hslot := fileSlot_inside hlim hfile hs
  have hle := filesize_le hsized hs
  have hR := regionsOf_exact hlim hfile
  have hbuf : (regionsOf (ds.map (·.1))).slideInfoFileOff.toNat ≤ (regionsOf (ds.map (·.1))).bufSize.toNat := by
    rw [hR.slideOff, hR.bufSize]
    exact Nat.le_add_right _ _
  have hlt := (regionsOf (ds.map (·.1))).bufSize.toNat_lt
  have hroom : ¬ (regionsOf (ds.map (·.1))).bufSize < s.cacheFileOff + s.filesize := by
    rw [UInt64.lt_iff_toNat_lt, UInt64.toNat_add]
    omega
  rw [contents, if_neg hroom]
  split
  · rename_i h0
    simp [h0]
  · rfl

/-- Every segment that was kept is in its slot after `copy_segments`. -/
theorem copied_of_apart (hapart : (allSegs (assignAddresses (ds.map (·.1))).2).Pairwise fun a b => a.fileSlot.Disjoint b.fileSlot)
    {i : Nat} {bytes : List UInt8} (hd : ds[i]? = some (d, bytes))
    {k : Nat} {seg : Segment} (hseg : (segmentsOf d.commands)[k]? = some seg) (hk : k < maxSegs)
    {x : Nat} (hx : x < seg.filesize.toNat) :
    ∃ d' s, (assignAddresses (ds.map (·.1))).2[i]? = some d' ∧ d'.segs[k]? = some s ∧
      copySegments (regionsOf (ds.map (·.1))) ((assignAddresses (ds.map (·.1))).2.zip (ds.map (·.2))) (fun _ => 0)
        (s.cacheFileOff.toNat + x) = bytes.getD (seg.fileoff.toNat + x) 0 := by
  obtain ⟨d', s, hd', hs, hload⟩ := assigned_seg hsized hd hseg hk
  have hsize : s.filesize = seg.filesize := congrArg SegInfo.filesize hload
  have hoff : s.origFileoff = seg.fileoff := congrArg SegInfo.origFileoff hload
  have hin : s ∈ allSegs (assignAddresses (ds.map (·.1))).2 :=
    List.mem_flatMap.mpr ⟨d', List.mem_of_getElem? hd', List.mem_of_getElem? hs⟩
  have hcontents := contents_eq hsized hlim hfile hin bytes
  rw [hoff, hsize] at hcontents
  have hlen : ((bytes.drop seg.fileoff.toNat).take seg.filesize.toNat).length = seg.filesize.toNat := by
    have : seg.fileoff.toNat + seg.filesize.toNat ≤ bytes.length :=
      ((hsized _ (List.mem_of_getElem? hd)).sized seg (List.mem_of_getElem? hseg)).2
    simp
    omega
  have hw : (s.cacheFileOff.toNat, contents (regionsOf (ds.map (·.1))) bytes s) ∈
      writes (regionsOf (ds.map (·.1))) ((assignAddresses (ds.map (·.1))).2.zip (ds.map (·.2))) := by
    refine List.mem_map.mpr ⟨(s, bytes), List.mem_flatMap.mpr ⟨(d', bytes), ?_, ?_⟩, rfl⟩
    · exact List.mem_of_getElem? (List.getElem?_zip_eq_some.mpr ⟨hd', by simp [hd]⟩)
    · exact List.mem_map_of_mem (List.mem_of_getElem? hs)
  refine ⟨d', s, hd', hs, ?_⟩
  rw [copySegments_eq, (foldl_put (writes_apart hsized hapart _)).2 _ hw x (by rw [hcontents, hlen]; exact hx), hcontents]
  simp [List.getD_eq_getElem?_getD, hx]

end Copies

/-! ## Soundness of the layout -/

theorem slotSize_sum : (l.map (·.slotSize)).sum = need .text l + need .data l + need .linkedit l := by
  induction l with
  | nil => rfl
  | cons s l ih =>
    rw [List.map_cons, List.sum_cons, ih]
    simp only [need_cons]
    cases s.region <;> simp <;> omega

section Sound

variable {ds : List (DylibInfo × List UInt8)} (hsized : ∀ p ∈ ds, Sized p) (hlim : Limited (ds.map (·.1)))
  {numRebaseLocs : Nat}

theorem mapping_range {ds : List DylibInfo} (h : need r (allSegs ds) < 2 ^ 64) :
    ((regionsOf ds).mapping r).range = ⟨(regionBase r).toNat, need r (allSegs ds)⟩ := by
  rw [MappingInfo.range, size_exact h]
  cases r <;> rfl

theorem textBase_toNat : (regionBase .text).toNat = 0x7FFF20000000 := rfl

theorem dataBase_toNat : (regionBase .data).toNat = 0x7FFF80000000 := rfl

theorem linkBase_toNat : (regionBase .linkedit).toNat = 0x7FFFC0000000 := rfl

theorem Fits.regions_disjoint {ds : List DylibInfo} (h : Fits ds) (r r' : Region) (hne : r ≠ r') :
    Range.Disjoint ⟨(regionBase r).toNat, need r (allSegs ds)⟩ ⟨(regionBase r').toNat, need r' (allSegs ds)⟩ := by
  obtain ⟨-, -, -, htd, htl, hdl⟩ := h
  rw [Range.disjoint_iff]
  cases r <;> cases r' <;> simp only [textBase_toNat, dataBase_toNat, linkBase_toNat, ne_eq, not_true_eq_false] at hne ⊢ <;> omega

/-- The ranges of the mappings are apart just if the regions fit between their bases. -/
theorem mappings_apart_iff {ds : List DylibInfo} (h : ∀ r, need r (allSegs ds) < 2 ^ 64) :
    ((mappingsOf (regionsOf ds)).Pairwise fun a b => a.range.Disjoint b.range) ↔
      (need .text (allSegs ds) ≤ 0x60000000 ∨ need .data (allSegs ds) = 0) ∧
      (need .text (allSegs ds) ≤ 0xA0000000 ∨ need .linkedit (allSegs ds) = 0) ∧
      (need .data (allSegs ds) ≤ 0x40000000 ∨ need .linkedit (allSegs ds) = 0) := by
  simp only [mappingsOf, List.pairwise_cons, List.mem_cons, List.not_mem_nil, or_false, forall_eq_or_imp, forall_eq, mapping_range (h _),
    Range.disjoint_iff, textBase_toNat, dataBase_toNat, linkBase_toNat, false_imp_iff, implies_true, List.Pairwise.nil, and_true]
  omega

variable (hlim : Limited (ds.map (·.1))) (h : BuildSound ds numRebaseLocs)
include h

/-- All parts of the file together fit into the buffer as it was allocated. -/
theorem need_le_bufSize :
    need .text (allSegs (ds.map (·.1))) + need .data (allSegs (ds.map (·.1))) + need .linkedit (allSegs (ds.map (·.1))) ≤
      (regionsOf (ds.map (·.1))).bufSize.toNat := by
  have hsum := sum_size_le h.file_apart h.file_inside
  have hslots : ((allSegs (assignAddresses (ds.map (·.1))).2).map fun s => s.fileSlot.size).sum =
      ((allSegs (ds.map (·.1))).map (·.slotSize)).sum := by
    have := congrArg (fun l => (l.map (·.slotSize)).sum) (assigned_unplaced (ds.map (·.1)))
    simpa [Function.comp_def, SegInfo.fileSlot] using this
  have hout : (outputSize (assignAddresses (ds.map (·.1))).1 numRebaseLocs).toNat ≤
      (regionsOf (ds.map (·.1))).bufSize.toNat := by
    simp only [outputSize]
    split
    · rename_i hlt
      exact Nat.le_of_lt (UInt64.lt_iff_toNat_lt.mp hlt)
    · exact Nat.le_refl _
  rw [← slotSize_sum]
  simp only [fileRanges, List.map_append, List.map_map, List.sum_append, Function.comp_def, hslots] at hsum
  omega

include hlim

/-- No sum wraps in a sound layout. -/
theorem fileNeed_lt : fileNeed (ds.map (·.1)) < 2 ^ 64 := by
  have hle := need_le_bufSize h
  have hlt := (regionsOf (ds.map (·.1))).bufSize.toNat_lt
  have hneed : ∀ r, need r (allSegs (ds.map (·.1))) < 2 ^ 64 := fun r => by cases r <;> omega
  have hmeta := (metaSize_exact hlim).2
  have hslide := (slideInfoSize_exact (hneed .data)).2
  -- the wrapped size would be far too small for what lies in the file
  rw [bufSize_mod hlim hneed] at hle
  unfold fileNeed at hle ⊢
  omega

theorem fits_of_sound : Fits (ds.map (·.1)) := by
  have hfile := fileNeed_lt hlim h
  have hR := regionsOf_exact hlim hfile
  have hneed : ∀ r, need r (allSegs (ds.map (·.1))) < 2 ^ 64 := fun r => hR.size r ▸ UInt64.toNat_lt _
  obtain ⟨htd, htl, hdl⟩ := (mappings_apart_iff hneed).mp h.mappings_apart
  refine ⟨fun d hd seg hseg => ?_, hfile, fun r => ?_, htd, htl, hdl⟩
  · obtain ⟨p, hp, rfl⟩ := List.mem_map.mp hd
    obtain ⟨i, hi⟩ := List.mem_iff_getElem?.mp hp
    obtain ⟨k, hk⟩ := List.mem_iff_getElem?.mp hseg
    rw [List.getElem?_drop] at hk
    by_contra hne
    have hpos : 0 < seg.filesize.toNat := Nat.pos_of_ne_zero fun h0 => hne (UInt64.toNat_inj.mp h0)
    obtain ⟨d', s, -, hs, -⟩ := h.copied i p.1 p.2 hi _ seg hk 0 hpos
    have := (List.getElem?_eq_some_iff.mp hs).1
    have := d'.segs_le
    omega
  · have hmem : (regionsOf (ds.map (·.1))).mapping r ∈ mappingsOf (regionsOf (ds.map (·.1))) := by
      cases r <;> simp [mappingsOf]
    have hin := h.mappings_inside _ hmem
    rw [mapping_range (hneed r)] at hin
    rcases Nat.eq_zero_or_pos (need r (allSegs (ds.map (·.1)))) with h0 | hpos
    · have := (regionBase r).toNat_lt
      omega
    · have := (Range.inside_iff (show 0 < (⟨(regionBase r).toNat, need r (allSegs (ds.map (·.1)))⟩ : Range).size from hpos)).mp hin
      simp only at this
      omega

omit hlim h

theorem fileSlots_apart (hlim : Limited (ds.map (·.1))) (hfile : fileNeed (ds.map (·.1)) < 2 ^ 64) :
    (allSegs (assignAddresses (ds.map (·.1))).2).Pairwise fun a b => a.fileSlot.Disjoint b.fileSlot :=
  keyed_disjoint (file_stack hlim hfile) (file_disjoint hlim hfile)

theorem vmSlot_inside (hvm : ∀ r, (regionBase r).toNat + need r (allSegs (ds.map (·.1))) ≤ 2 ^ 64)
    (hs : s ∈ allSegs (assignAddresses (ds.map (·.1))).2) :
    s.vmSlot.Inside ⟨(regionBase s.region).toNat, need s.region (allSegs (ds.map (·.1)))⟩ :=
  keyed_inside (fun r => vm_stack (hvm r)) hs

theorem vmSlots_apart (hvm : ∀ r, (regionBase r).toNat + need r (allSegs (ds.map (·.1))) ≤ 2 ^ 64)
    (hregions : ∀ r r', r ≠ r' → Range.Disjoint ⟨(regionBase r).toNat, need r (allSegs (ds.map (·.1)))⟩
      ⟨(regionBase r').toNat, need r' (allSegs (ds.map (·.1)))⟩) :
    (allSegs (assignAddresses (ds.map (·.1))).2).Pairwise fun a b => a.vmSlot.Disjoint b.vmSlot :=
  keyed_disjoint (fun r => vm_stack (hvm r)) hregions

theorem file_sound (hlim : Limited (ds.map (·.1))) (hfile : fileNeed (ds.map (·.1)) < 2 ^ 64) :
    (fileRanges (regionsOf (ds.map (·.1))) numRebaseLocs (assignAddresses (ds.map (·.1))).2).Pairwise Range.Disjoint ∧
    ∀ r ∈ fileRanges (regionsOf (ds.map (·.1))) numRebaseLocs (assignAddresses (ds.map (·.1))).2,
      r.Inside ⟨0, (outputSize (regionsOf (ds.map (·.1))) numRebaseLocs).toNat⟩ := by
  have hR := regionsOf_exact hlim hfile
  have hplaced : Limited (assignAddresses (ds.map (·.1))).2 := hlim.placed _ _
  have hmeta : ∀ r ∈ (writeMetadata (regionsOf (ds.map (·.1))) numRebaseLocs (assignAddresses (ds.map (·.1))).2).ranges,
      r.Inside ⟨0, metaNeed (ds.map (·.1))⟩ := fun r hr =>
    metaNeed_placed (regionsOf (ds.map (·.1))) (ds.map (·.1)) ⟨0, 0, 0⟩ ▸ metadata_inside hplaced hr
  have hslots : ∀ r ∈ (allSegs (assignAddresses (ds.map (·.1))).2).map (·.fileSlot), metaNeed (ds.map (·.1)) ≤ r.start ∧
      r.start + r.size ≤ (regionsOf (ds.map (·.1))).slideInfoFileOff.toNat := by
    intro r hr
    obtain ⟨s, hs, rfl⟩ := List.mem_map.mp hr
    exact fileSlot_inside hlim hfile hs
  have hslide : metaNeed (ds.map (·.1)) ≤ (regionsOf (ds.map (·.1))).slideInfoFileOff.toNat := by
    rw [hR.slideOff]
    omega
  have hout := outputSize_exact hlim hfile numRebaseLocs
  refine ⟨List.pairwise_append.mpr ⟨List.pairwise_append.mpr ⟨?_, ?_, ?_⟩, List.pairwise_singleton _ _, ?_⟩, ?_⟩
  · rw [metadata_stack hplaced]
    exact stack_disjoint _ _
  · exact List.pairwise_map.mpr (fileSlots_apart hlim hfile)
  · intro r hr s hs x hx hx'
    have hx := hmeta r hr x hx
    have := hslots s hs
    simp only [Range.mem_iff] at hx hx'
    omega
  · intro r hr s hs x hx hx'
    obtain rfl := List.mem_singleton.mp hs
    rcases List.mem_append.mp hr with hr | hr
    · have hx := hmeta r hr x hx
      simp only [Range.mem_iff] at hx hx'
      omega
    · have := hslots r hr
      simp only [Range.mem_iff] at hx hx'
      omega
  · intro r hr
    rcases List.mem_append.mp hr with hr | hr
    · rcases List.mem_append.mp hr with hr | hr
      · exact (hmeta r hr).trans (Range.inside_of_le (Nat.le_refl _) (by simp only; omega))
      · have := hslots r hr
        exact Range.inside_of_le (Nat.zero_le _) (by simp only; omega)
    · obtain rfl := List.mem_singleton.mp hr
      exact Range.inside_of_le (Nat.zero_le _) (by simp only; omega)

theorem sound_of_fits (hsized : ∀ p ∈ ds, Sized p) (hlim : Limited (ds.map (·.1))) (h : Fits (ds.map (·.1))) :
    BuildSound ds numRebaseLocs := by
  have hR := regionsOf_exact hlim h.file
  have hneed : ∀ r, need r (allSegs (ds.map (·.1))) < 2 ^ 64 := fun r => hR.size r ▸ UInt64.toNat_lt _
  have hapart := (mappings_apart_iff hneed).mpr ⟨h.text_data, h.text_link, h.data_link⟩
  obtain ⟨hfiles, hinside⟩ := file_sound hlim h.file
  unfold BuildSound
  rw [assigned_regions]
  refine ⟨vmSlots_apart h.vm h.regions_disjoint, fun s hs => ?_, hapart, fun m hm => ?_, hfiles, hinside, ?_⟩
  · rw [mapping_range (hneed _)]
    exact vmSlot_inside h.vm hs
  · obtain ⟨r, rfl⟩ : ∃ r, m = (regionsOf (ds.map (·.1))).mapping r := by
      simp only [mappingsOf, List.mem_cons, List.not_mem_nil, or_false] at hm
      rcases hm with rfl | rfl | rfl
      exacts [⟨_, rfl⟩, ⟨_, rfl⟩, ⟨_, rfl⟩]
    rw [mapping_range (hneed _)]
    exact Range.inside_of_le (Nat.zero_le _) (by simpa using h.vm r)
  · intro i d bytes hd k seg hseg x hx
    have hk : k < maxSegs := by
      by_contra hge
      have hdrop : seg ∈ (segmentsOf d.commands).drop maxSegs := by
        refine List.mem_iff_getElem?.mpr ⟨k - maxSegs, ?_⟩
        rw [List.getElem?_drop, ← hseg]
        congr 1
        omega
      have h0 := h.kept d (List.mem_map.mpr ⟨_, List.mem_of_getElem? hd, rfl⟩) seg hdrop
      rw [h0] at hx
      exact Nat.not_lt_zero _ hx
    exact copied_of_apart hsized hlim h.file (fileSlots_apart hlim h.file) hd hseg hk hx

end Sound

/-! ## Loading -/

theorem loadDylib_some {cmds : List LoadCommand} {loaded : List DylibInfo} (h : loadDylib cmds loaded = some d) :
    d.commands = cmds ∧ d.segs = ((segmentsOf cmds).take maxSegs).map SegInfo.load ∧ d.installName.length ≤ 255 := by
  unfold loadDylib at h
  simp only at h
  split at h
  · cases h
  · split at h
    · cases h
    · cases h
      exact ⟨rfl, rfl, by simp [installNameOf]⟩

/-- Every loaded dylib comes from one of the files. -/
theorem loadDylibs_spec (files : List InputFile) :
    (loadDylibs files).length ≤ files.length ∧ ∀ p ∈ loadDylibs files, ∃ f ∈ files, p.1.commands = f.commands ∧ p.2 = f.bytes ∧
      p.1.segs = ((segmentsOf f.commands).take maxSegs).map SegInfo.load ∧ p.1.installName.length ≤ 255 := by
  unfold loadDylibs
  induction files using List.reverseRecOn with
  | nil => simp
  | append_singleton files f ih =>
    rw [List.foldl_append, List.foldl_cons, List.foldl_nil]
    generalize files.foldl _ [] = ds at ih
    obtain ⟨hlen, hfrom⟩ := ih
    have hold : ∀ p ∈ ds, ∃ g ∈ files ++ [f], p.1.commands = g.commands ∧ p.2 = g.bytes ∧
        p.1.segs = ((segmentsOf g.commands).take maxSegs).map SegInfo.load ∧ p.1.installName.length ≤ 255 := by
      intro p hp
      obtain ⟨g, hg, h⟩ := hfrom p hp
      exact ⟨g, List.mem_append_left _ hg, h⟩
    split
    · rename_i d hd
      obtain ⟨hcmds, hsegs, hname⟩ := loadDylib_some hd
      refine ⟨by simpa using hlen, fun p hp => ?_⟩
      rcases List.mem_append.mp hp with hp | hp
      · exact hold p hp
      · obtain rfl := List.mem_singleton.mp hp
        exact ⟨f, by simp, hcmds, rfl, hsegs, hname⟩
    · exact ⟨by simp; omega, hold⟩

theorem loadDylibs_limited {files : List InputFile} (hcount : files.length ≤ 32) : Limited ((loadDylibs files).map (·.1)) := by
  obtain ⟨hlen, hfrom⟩ := loadDylibs_spec files
  refine ⟨by simpa using Nat.le_trans hlen hcount, fun d hd => ?_⟩
  obtain ⟨p, hp, rfl⟩ := List.mem_map.mp hd
  obtain ⟨-, -, -, -, -, hname⟩ := hfrom p hp
  exact hname

theorem loadDylibs_sized {files : List InputFile} (hsized : ∀ f ∈ files, ∀ seg ∈ segmentsOf f.commands,
    seg.filesize ≤ seg.vmsize ∧ seg.fileoff.toNat + seg.filesize.toNat ≤ f.bytes.length) : ∀ p ∈ loadDylibs files, Sized p := by
  intro p hp
  obtain ⟨f, hf, hcmds, hbytes, hsegs, hname⟩ := (loadDylibs_spec files).2 p hp
  exact ⟨hcmds ▸ hsegs, hname, hcmds ▸ hbytes ▸ hsized f hf⟩

/-- The layout of the cache is sound just if the segments fit. -/
theorem layout_sound_iff (files : List InputFile) (hcount : files.length ≤ 32)
    (hsized : ∀ f ∈ files, ∀ seg ∈ segmentsOf f.commands,
      seg.filesize ≤ seg.vmsize ∧ seg.fileoff.toNat + seg.filesize.toNat ≤ f.bytes.length) (numRebaseLocs : Nat) :
    BuildSound (loadDylibs files) numRebaseLocs ↔ Fits ((loadDylibs files).map (·.1)) :=
  ⟨fits_of_sound (loadDylibs_limited hcount), sound_of_fits (loadDylibs_sized hsized) (loadDylibs_limited hcount)⟩

/-! ## A small dylib and one with a large `__DATA` -/

def dylibOf (dataSize : UInt64) : InputFile where
  commands := [.idDylib (cstr "/a"), .segment ⟨segText, 0, 0x1000, 0, 2, 5, []⟩,
    .segment ⟨cstr "__DATA", 0x1000, dataSize, 2, 1, 3, []⟩, .segment ⟨segLinkedit, 0x80000000, 0x1000, 3, 1, 1, []⟩]
  bytes := [1, 2, 3, 4]

/-- One with two segments more. -/
def largerDylib : InputFile where
  commands := (dylibOf 0x3000).commands ++ [.segment ⟨cstr "__DATA_CONST", 0x4000, 0x1000, 1, 2, 3, []⟩,
    .segment ⟨cstr "__OBJC", 0x5000, 0x800, 0, 3, 5, []⟩]
  bytes := [5, 6, 7, 8]

theorem layout_sound_small : BuildSound (loadDylibs [dylibOf 0x2000, largerDylib]) 0 :=
  (layout_sound_iff [dylibOf 0x2000, largerDylib] (by decide) (by decide) 0).mpr
    { kept := by decide
      file := by decide
      vm := fun r => by cases r <;> decide
      text_data := by decide
      text_link := by decide
      data_link := by decide }

/-- One page more than lies between the bases: the DATA mapping runs into LINKEDIT's. -/
theorem data_overlaps_linkedit :
    (∀ f ∈ [dylibOf 0x40001000], ∀ seg ∈ segmentsOf f.commands,
      seg.filesize ≤ seg.vmsize ∧ seg.fileoff.toNat + seg.filesize.toNat ≤ f.bytes.length) ∧
    (∃ x, x ∈ ((assignAddresses ((loadDylibs [dylibOf 0x40001000]).map (·.1))).1.mapping .data).range ∧
      x ∈ ((assignAddresses ((loadDylibs [dylibOf 0x40001000]).map (·.1))).1.mapping .linkedit).range) ∧
    ¬ BuildSound (loadDylibs [dylibOf 0x40001000]) 0 := by
  have hdata : 0x7FFFC0000000 ∈ ((assignAddresses ((loadDylibs [dylibOf 0x40001000]).map (·.1))).1.mapping .data).range :=
    Range.mem_iff.mpr (by decide)
  have hlink : 0x7FFFC0000000 ∈ ((assignAddresses ((loadDylibs [dylibOf 0x40001000]).map (·.1))).1.mapping .linkedit).range :=
    Range.mem_iff.mpr (by decide)
  refine ⟨by decide, ⟨_, hdata, hlink⟩, fun h => ?_⟩
  have hapart := h.mappings_apart
  rw [mappingsOf, List.pairwise_cons, List.pairwise_cons] at hapart
  exact hapart.2.1 _ (List.mem_singleton.mpr rfl) _ hdata hlink

end Panthera.Cache
