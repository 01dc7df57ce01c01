/-
  Panthera.Boot.Stage — the kernel's segments as they are put into memory
  (`bootx64.c`: the zero fill and the copies of
  `panthera_stage_kernel_image`, `panthera_segment_physical_base`).

  A read outside the kernel file and a write outside the range that the firmware has
  granted are faults. The parser has compared one sum of 64 bits, the end of a segment's
  contents, with the size of the file; that a segment's contents fit its place in the image
  is compared nowhere. So staging faults exactly if some segment does not fit
  (`stageSegments_not_fault_iff`), and there are files it faults on
  (`contents_overrun_image`).
-/

import Panthera.Lib.Ranges
import Panthera.Lib.Wire
import Panthera.Boot.KernelImage

namespace Panthera.Boot

open Lib.Bytes Lib.Fault Lib.Ranges Lib.Wire

abbrev EfiStatus := UInt64

def efiNotFound : EfiStatus := 0x800000000000000e

/-! ## Zero fill and copies -/

/-- `image_span` -/
def KernelImage.span (img : KernelImage) : UInt64 := img.highestVmaddr - img.lowestVmaddr

def segmentPhysicalBase (img : KernelImage) (base : UInt64) (s : KernelSegment) : UInt64 :=
  base + (s.vmaddr - img.lowestVmaddr)

/-- `panthera_zero_memory`; a write outside the granted range faults. -/
def zeroMemory? (granted : Range) (mem : Mem) (dst size : Nat) : Option Mem :=
  if granted.start ≤ dst ∧ dst + size ≤ granted.stop then some fun x => if dst ≤ x ∧ x < dst + size then 0 else mem x
  else none

/-- `panthera_copy_memory` out of the kernel file; a read outside the file and a write outside
    the granted range fault. -/
def copyFromFile? (file : List UInt8) (granted : Range) (mem : Mem) (dst off size : Nat) : Option Mem :=
  if off + size ≤ file.length ∧ granted.start ≤ dst ∧ dst + size ≤ granted.stop then
    some (put mem dst ((file.drop off).take size))
  else none

def copySegment (file : List UInt8) (img : KernelImage) (base : UInt64) (granted : Range) (mem : Mem) (s : KernelSegment) :
    ExceptT EfiStatus Option Mem :=
  if s.filesize = 0 then pure mem
  else if file.length < (s.fileoff + s.filesize).toNat then throw efiNotFound
  else copyFromFile? file granted mem (segmentPhysicalBase img base s).toNat s.fileoff.toNat s.filesize.toNat

/-- The memory once the image is in it, before it is slid. -/
def stageSegments (file : List UInt8) (img : KernelImage) (base : UInt64) (granted : Range) (mem : Mem) :
    ExceptT EfiStatus Option Mem := do
  let mem ← zeroMemory? granted mem base.toNat img.span.toNat
  img.segments.foldlM (copySegment file img base granted) mem

/-! ## Where the accesses fall -/

/-- The contents of a segment lie inside the file and, where they go, inside the image. -/
def SegmentFits (file : List UInt8) (img : KernelImage) (s : KernelSegment) : Prop :=
  s.filesize ≠ 0 → s.fileoff.toNat + s.filesize.toNat ≤ file.length ∧
    (s.vmaddr - img.lowestVmaddr).toNat + s.filesize.toNat ≤ img.span.toNat

/-- The firmware grants addresses, not numbers past the last one. -/
def Granted (base span : UInt64) : Prop := base.toNat + span.toNat ≤ 2 ^ 64

instance (file : List UInt8) (img : KernelImage) (s : KernelSegment) : Decidable (SegmentFits file img s) :=
  inferInstanceAs (Decidable (_ → _))

instance (base span : UInt64) : Decidable (Granted base span) := inferInstanceAs (Decidable (_ ≤ _))

section

variable {file : List UInt8} {img : KernelImage} {base : UInt64} {s : KernelSegment} (hg : Granted base img.span)
include hg

theorem destination_inside_iff (hs : s.filesize ≠ 0) :
    (base.toNat ≤ (segmentPhysicalBase img base s).toNat ∧
      (segmentPhysicalBase img base s).toNat + s.filesize.toNat ≤ base.toNat + img.span.toNat) ↔
    (s.vmaddr - img.lowestVmaddr).toNat + s.filesize.toNat ≤ img.span.toNat := by
  have hpos : 0 < s.filesize.toNat := Nat.pos_of_ne_zero fun h => hs (UInt64.toNat_inj.mp h)
  have hd := (s.vmaddr - img.lowestVmaddr).toNat_lt
  have hb := base.toNat_lt
  unfold Granted at hg
  rw [segmentPhysicalBase, UInt64.toNat_add]
  omega

theorem copySegment_ok (h : SegmentFits file img s)
    (hfile : (s.fileoff + s.filesize).toNat ≤ file.length) (mem : Mem) :
    ∃ mem', (copySegment file img base ⟨base.toNat, img.span.toNat⟩ mem s).run = some (.ok mem') := by
  unfold copySegment
  split
  · exact ⟨mem, rfl⟩
  · rename_i hs
    rw [if_neg (by omega), copyFromFile?, if_pos ⟨(h hs).1, (destination_inside_iff hg hs).mpr (h hs).2⟩]
    exact ⟨_, rfl⟩

theorem copySegment_fault (h : ¬ SegmentFits file img s)
    (hfile : (s.fileoff + s.filesize).toNat ≤ file.length) (mem : Mem) :
    (copySegment file img base ⟨base.toNat, img.span.toNat⟩ mem s).run = none := by
  rw [SegmentFits, Classical.not_imp] at h
  obtain ⟨hs, h⟩ := h
  rw [copySegment, if_neg hs, if_neg (by omega), copyFromFile?,
    if_neg fun hc => h ⟨hc.1, (destination_inside_iff hg hs).mp hc.2⟩]
  rfl

theorem stageSegments_not_fault_iff (hc : Checked file img) (mem : Mem) :
    (stageSegments file img base ⟨base.toNat, img.span.toNat⟩ mem).run ≠ none ↔ ∀ s ∈ img.segments, SegmentFits file img s := by
  have hzero : zeroMemory? ⟨base.toNat, img.span.toNat⟩ mem base.toNat img.span.toNat =
      some fun x => if base.toNat ≤ x ∧ x < base.toNat + img.span.toNat then 0 else mem x :=
    if_pos ⟨Nat.le_refl _, Nat.le_refl _⟩
  rw [stageSegments, hzero]
  exact foldlM_not_fault_iff (fun s hs h => copySegment_ok hg h (hc.file_fits s hs))
    (fun s hs h => copySegment_fault hg h (hc.file_fits s hs)) _

end

/-- The parser reads inside the file, whatever is in it. Staging an image it has accepted
    reads inside the file and writes inside the range it was granted exactly if every segment
    with contents has them inside the file and, at its place, inside the image: neither of
    the parser's two sums is checked for having wrapped, and no file size against a VM size. -/
theorem kernel_staging_in_bounds_iff (file : List UInt8) :
    (parseKernelMacho file).run ≠ none ∧
    ∀ img, (parseKernelMacho file).run = some (.ok img) → ∀ base mem, Granted base img.span →
      ((stageSegments file img base ⟨base.toNat, img.span.toNat⟩ mem).run ≠ none ↔
        ∀ s ∈ img.segments, SegmentFits file img s) := by
  have hsafe := parseKernelMacho_safe file
  refine ⟨hsafe.not_fault, fun img himg base mem hg => ?_⟩
  exact stageSegments_not_fault_iff hg (hsafe.of_ok himg).1 mem

/-! ## Kernel files -/

def machHeader (ncmds sizeofcmds : UInt32) : List UInt8 :=
  le32 0xfeedfacf ++ le32 0x01000007 ++ le32 3 ++ le32 2 ++ le32 ncmds ++ le32 sizeofcmds ++ le32 1 ++ le32 0

/-- A name in a field of 16 bytes. -/
def nameField16 (s : String) : List UInt8 := ((s.toList.map fun c => c.toNat.toUInt8) ++ zeros 16).take 16

def segmentCommand (name : String) (vmaddr vmsize fileoff filesize : UInt64) (sections : List (List UInt8)) : List UInt8 :=
  le32 0x19 ++ le32 (UInt32.ofNat (72 + 80 * sections.length)) ++ nameField16 name ++ le64 vmaddr ++ le64 vmsize ++
    le64 fileoff ++ le64 filesize ++ le32 7 ++ le32 5 ++ le32 (UInt32.ofNat sections.length) ++ le32 0 ++ sections.flatten

def threadCommand (rip : UInt64) : List UInt8 :=
  le32 5 ++ le32 184 ++ le32 4 ++ le32 42 ++ zeros 128 ++ le64 rip ++ zeros 32

/-- A file with one segment, which has all of it for contents. -/
def oneSegment (vmsize : UInt64) (tail : Nat) : List UInt8 :=
  machHeader 2 256 ++ segmentCommand "__TEXT" 0x100000 vmsize 0 (288 + UInt64.ofNat tail) [] ++
    threadCommand 0x100000 ++ zeros tail

def oneSegmentImage (vmsize : UInt64) (tail : Nat) : KernelImage where
  entryPc := 0x100000
  lowestVmaddr := 0x100000
  highestVmaddr := 0x100000 + vmsize
  localRelocOffset := 0
  localRelocCount := 0
  segments := [⟨nameField16 "__TEXT", 0x100000, vmsize, 0, 288 + UInt64.ofNat tail, 7, 5⟩]
  sections := []
  segments_le := by simp [maxKernelSegments]
  sections_le := by simp

theorem kernel_staging_in_bounds_page :
    (parseKernelMacho (oneSegment 0x1000 0)).run = some (.ok (oneSegmentImage 0x1000 0)) ∧
    (stageSegments (oneSegment 0x1000 0) (oneSegmentImage 0x1000 0) 0x200000
      ⟨(0x200000 : UInt64).toNat, (oneSegmentImage 0x1000 0).span.toNat⟩ fun _ => 0xff).run ≠ none := by
  have hparse : (parseKernelMacho (oneSegment 0x1000 0)).run = some (.ok (oneSegmentImage 0x1000 0)) := by decide +kernel
  refine ⟨hparse, ((kernel_staging_in_bounds_iff (oneSegment 0x1000 0)).2 _ hparse 0x200000 _ (by decide)).mpr ?_⟩
  decide +kernel

/-- The image is one page; the file is longer, and all of it goes to the image's place. -/
theorem contents_overrun_image :
    (parseKernelMacho (oneSegment 0x1000 3840)).run = some (.ok (oneSegmentImage 0x1000 3840)) ∧
    Granted 0x200000 (oneSegmentImage 0x1000 3840).span ∧
    (stageSegments (oneSegment 0x1000 3840) (oneSegmentImage 0x1000 3840) 0x200000
      ⟨(0x200000 : UInt64).toNat, (oneSegmentImage 0x1000 3840).span.toNat⟩ fun _ => 0xff).run = none := by
  refine ⟨by decide +kernel, by decide, Option.isNone_iff_eq_none.mp ?_⟩
  decide +kernel

end Panthera.Boot
