/-
  Panthera.Boot.KernelImage — the kernel file as the loader reads it
  (`panthera_loader.c`: `panthera_parse_kernel_macho`).

  A read outside the file is a fault. Each load command is read only once its size is known
  to lie inside the file and to hold what is read of it, so that the parser never faults;
  what it has checked of an image that it accepts is `Checked`.
-/

import Panthera.Lib.Bytes
import Panthera.Lib.Fault

namespace Panthera.Boot

open Lib.Bytes Lib.Fault

/-! ## The image -/

/-- `PantheraLoaderStatus`, but for `PANTHERA_LOADER_OK`. -/
inductive LoaderStatus where
  | null
  | truncated
  | badMagic
  | badCpu
  | badFiletype
  | tooManySegments
  | missingEntry
  | badReloc
  | tooManySections
  deriving DecidableEq, Repr

/-- `PantheraKernelSegment` -/
structure KernelSegment where
  segname : List UInt8
  vmaddr : UInt64
  vmsize : UInt64
  fileoff : UInt64
  filesize : UInt64
  maxprot : UInt32
  initprot : UInt32
  deriving DecidableEq, Repr

/-- `PantheraKernelSection` -/
structure KernelSection where
  addr : UInt64
  size : UInt64
  deriving DecidableEq, Repr

def maxKernelSegments : Nat := 16

def maxKernelSections : Nat := 64

/-- `PantheraKernelImage`; the two arrays hold what their counts say. -/
structure KernelImage where
  entryPc : UInt64
  lowestVmaddr : UInt64
  highestVmaddr : UInt64
  localRelocOffset : UInt32
  localRelocCount : UInt32
  segments : List KernelSegment
  sections : List KernelSection
  segments_le : segments.length ≤ maxKernelSegments
  sections_le : sections.length ≤ maxKernelSections
  deriving DecidableEq, Repr

/-! ## Parsing -/

/-- A run of the parser; `none` is a read outside the file. -/
abbrev Parser := ExceptT LoaderStatus Option

def readBytes? (bytes : List UInt8) (off n : Nat) : Option (List UInt8) :=
  if off + n ≤ bytes.length then some ((bytes.drop off).take n) else none

/-- One header of the section table at `table`. -/
def parseSection (file : List UInt8) (table : Nat) (img : KernelImage) (index : Nat) : Parser KernelImage :=
  if h : img.sections.length < maxKernelSections then do
    let addr ← read64? file (table + 80 * index + 32)
    let size ← read64? file (table + 80 * index + 40)
    pure { img with
      sections := img.sections ++ [⟨addr, size⟩]
      sections_le := by rw [List.length_append]; exact h }
  else throw .tooManySections

/-- `LC_SEGMENT_64` -/
def parseSegment (file : List UInt8) (off : Nat) (cmdsize : UInt32) (img : KernelImage) : Parser KernelImage :=
  if cmdsize.toNat < 72 then throw .truncated
  else do
    let nsects ← read32? file (off + 64)
    if cmdsize.toNat < 72 + nsects.toNat * 80 then throw .truncated
    else do
      let segname ← readBytes? file (off + 8) 16
      let vmaddr ← read64? file (off + 24)
      let vmsize ← read64? file (off + 32)
      let fileoff ← read64? file (off + 40)
      let filesize ← read64? file (off + 48)
      let maxprot ← read32? file (off + 56)
      let initprot ← read32? file (off + 60)
      if vmsize = 0 ∧ filesize = 0 then pure img
      -- both sums are of 64 bits
      else if file.length < (fileoff + filesize).toNat then throw .truncated
      else if h : img.segments.length < maxKernelSegments then
        (List.range nsects.toNat).foldlM (parseSection file (off + 72)) { img with
          lowestVmaddr := if vmaddr < img.lowestVmaddr then vmaddr else img.lowestVmaddr
          highestVmaddr := if img.highestVmaddr < vmaddr + vmsize then vmaddr + vmsize else img.highestVmaddr
          segments := img.segments ++ [⟨segname, vmaddr, vmsize, fileoff, filesize, maxprot, initprot⟩]
          segments_le := by rw [List.length_append]; exact h }
      else throw .tooManySegments

/-- `LC_DYSYMTAB` -/
def parseDysymtab (file : List UInt8) (off : Nat) (cmdsize : UInt32) (img : KernelImage) : Parser KernelImage :=
  if cmdsize.toNat < 80 then throw .truncated
  else do
    let locreloff ← read32? file (off + 72)
    let nlocrel ← read32? file (off + 76)
    if file.length < locreloff.toNat + nlocrel.toNat * 8 then throw .truncated
    else pure { img with localRelocOffset := locreloff, localRelocCount := nlocrel }

/-- `LC_UNIXTHREAD` -/
def parseThread (file : List UInt8) (off : Nat) (cmdsize : UInt32) (img : KernelImage) : Parser KernelImage :=
  if cmdsize.toNat < 184 then throw .truncated
  else do
    let rip ← read64? file (off + 144)
    pure { img with entryPc := rip }

def parseCommand (file : List UInt8) (off : Nat) (cmd cmdsize : UInt32) (img : KernelImage) : Parser KernelImage :=
  if cmd = 0x19 then parseSegment file off cmdsize img
  else if cmd = 0xb then parseDysymtab file off cmdsize img
  else if cmd = 0x5 then parseThread file off cmdsize img
  else pure img

/-- The loop over the load commands, with so many of them to go and the cursor at `off`. -/
def parseCommands (file : List UInt8) : Nat → Nat → KernelImage → Parser KernelImage
  | 0, _, img => pure img
  | n + 1, off, img =>
    if file.length < off + 8 then throw .truncated
    else do
      let cmd ← read32? file off
      let cmdsize ← read32? file (off + 4)
      if cmdsize.toNat < 8 then throw .truncated
      else if file.length < off + cmdsize.toNat then throw .truncated
      else do
        let img ← parseCommand file off cmd cmdsize img
        parseCommands file n (off + cmdsize.toNat) img

/-- What `panthera_zero` leaves, with the bounds that no segment has moved. -/
def KernelImage.empty : KernelImage where
  entryPc := 0
  lowestVmaddr := 0xffffffffffffffff
  highestVmaddr := 0
  localRelocOffset := 0
  localRelocCount := 0
  segments := []
  sections := []
  segments_le := Nat.zero_le _
  sections_le := Nat.zero_le _

/-- The file is in memory, so that no offset of a command in it wraps. -/
def parseKernelMacho (file : List UInt8) : Parser KernelImage :=
  if file.length < 32 then throw .truncated
  else do
    let magic ← read32? file 0
    let cputype ← read32? file 4
    let filetype ← read32? file 12
    let ncmds ← read32? file 16
    let sizeofcmds ← read32? file 20
    if magic ≠ 0xfeedfacf then throw .badMagic
    else if cputype ≠ 0x01000007 then throw .badCpu
    else if filetype ≠ 2 then throw .badFiletype
    else if file.length < 32 + sizeofcmds.toNat then throw .truncated
    else do
      let img ← parseCommands file ncmds.toNat 32 .empty
      if img.entryPc = 0 then throw .missingEntry else pure img

/-! ## What is accepted -/

/-- What the parser has checked of the segments and relocations of an image. -/
structure Checked (file : List UInt8) (img : KernelImage) : Prop where
  file_fits : ∀ s ∈ img.segments, (s.fileoff + s.filesize).toNat ≤ file.length
  lowest_le : ∀ s ∈ img.segments, img.lowestVmaddr ≤ s.vmaddr
  le_highest : ∀ s ∈ img.segments, s.vmaddr + s.vmsize ≤ img.highestVmaddr
  relocs_fit : img.localRelocOffset.toNat + img.localRelocCount.toNat * 8 ≤ file.length

theorem empty_checked (file : List UInt8) : Checked file .empty where
  file_fits := by simp [KernelImage.empty]
  lowest_le := by simp [KernelImage.empty]
  le_highest := by simp [KernelImage.empty]
  relocs_fit := by simp [KernelImage.empty]

section

variable {file : List UInt8} {img : KernelImage}

theorem safe_read32 {ε : Type} {off : Nat} (h : off + 4 ≤ file.length) :
    Safe (liftM (read32? file off) : ExceptT ε Option UInt32) fun _ => True :=
  .access (read32?_eq h) trivial

theorem safe_read64 {ε : Type} {off : Nat} (h : off + 8 ≤ file.length) :
    Safe (liftM (read64? file off) : ExceptT ε Option UInt64) fun _ => True :=
  .access (read64?_eq h) trivial

theorem safe_readBytes {ε : Type} {off n : Nat} (h : off + n ≤ file.length) :
    Safe (liftM (readBytes? file off n) : ExceptT ε Option (List UInt8)) fun _ => True :=
  .access (if_pos h) trivial

theorem parseSection_safe {table index : Nat} (hin : table + 80 * index + 80 ≤ file.length) (h : Checked file img) :
    Safe (parseSection file table img index) (Checked file) := by
  unfold parseSection
  split
  · refine (safe_read64 (by omega)).bind fun addr _ => (safe_read64 (by omega)).bind fun size _ => .pure ?_
    exact ⟨h.file_fits, h.lowest_le, h.le_highest, h.relocs_fit⟩
  · exact .throw

/-- A segment that is kept. -/
theorem Checked.push {s : KernelSegment} (h : Checked file img) (hfile : (s.fileoff + s.filesize).toNat ≤ file.length)
    (hlen : (img.segments ++ [s]).length ≤ maxKernelSegments) :
    Checked file { img with
      lowestVmaddr := if s.vmaddr < img.lowestVmaddr then s.vmaddr else img.lowestVmaddr
      highestVmaddr := if img.highestVmaddr < s.vmaddr + s.vmsize then s.vmaddr + s.vmsize else img.highestVmaddr
      segments := img.segments ++ [s]
      segments_le := hlen } where
  file_fits t ht := by
    rcases List.mem_append.mp ht with ht | ht
    · exact h.file_fits t ht
    · exact List.mem_singleton.mp ht ▸ hfile
  lowest_le t ht := by
    show (if s.vmaddr < img.lowestVmaddr then s.vmaddr else img.lowestVmaddr) ≤ t.vmaddr
    rcases List.mem_append.mp ht with ht | ht
    · have := h.lowest_le t ht
      split <;> grind
    · rw [List.mem_singleton.mp ht]
      split <;> grind
  le_highest t ht := by
    show t.vmaddr + t.vmsize ≤ if img.highestVmaddr < s.vmaddr + s.vmsize then s.vmaddr + s.vmsize else img.highestVmaddr
    rcases List.mem_append.mp ht with ht | ht
    · have := h.le_highest t ht
      split <;> grind
    · rw [List.mem_singleton.mp ht]
      split <;> grind
  relocs_fit := h.relocs_fit

variable {off : Nat} {cmd cmdsize : UInt32} (hin : off + cmdsize.toNat ≤ file.length) (h : Checked file img)

include hin h

theorem parseSegment_safe : Safe (parseSegment file off cmdsize img) (Checked file) := by
  refine .ite (fun _ => .throw) fun hsize => (safe_read32 (by omega)).bind fun nsects _ => ?_
  refine .ite (fun _ => .throw) fun hsects => ?_
  refine (safe_readBytes (by omega)).bind fun segname _ => (safe_read64 (by omega)).bind fun vmaddr _ =>
    (safe_read64 (by omega)).bind fun vmsize _ => (safe_read64 (by omega)).bind fun fileoff _ =>
    (safe_read64 (by omega)).bind fun filesize _ => (safe_read32 (by omega)).bind fun maxprot _ =>
    (safe_read32 (by omega)).bind fun initprot _ => ?_
  refine .ite (fun _ => .pure h) fun _ => .ite (fun _ => .throw) fun hfile => ?_
  split
  · refine Safe.foldlM (fun index hindex img himg => ?_) (h.push (s := ⟨segname, vmaddr, vmsize, fileoff, filesize, maxprot, initprot⟩) (Nat.le_of_not_lt hfile) _)
    have := List.mem_range.mp hindex
    exact parseSection_safe (by omega) himg
  · exact .throw

theorem parseDysymtab_safe : Safe (parseDysymtab file off cmdsize img) (Checked file) := by
  refine .ite (fun _ => .throw) fun hsize => (safe_read32 (by omega)).bind fun locreloff _ =>
    (safe_read32 (by omega)).bind fun nlocrel _ => .ite (fun _ => .throw) fun hrelocs => .pure ?_
  exact ⟨h.file_fits, h.lowest_le, h.le_highest, by simpa using hrelocs⟩

theorem parseThread_safe : Safe (parseThread file off cmdsize img) (Checked file) := by
  refine .ite (fun _ => .throw) fun hsize => (safe_read64 (by omega)).bind fun rip _ => .pure ?_
  exact ⟨h.file_fits, h.lowest_le, h.le_highest, h.relocs_fit⟩

theorem parseCommand_safe : Safe (parseCommand file off cmd cmdsize img) (Checked file) :=
  .ite (fun _ => parseSegment_safe hin h) fun _ => .ite (fun _ => parseDysymtab_safe hin h) fun _ =>
    .ite (fun _ => parseThread_safe hin h) fun _ => .pure h

end

theorem parseCommands_safe {file : List UInt8} : ∀ (n : Nat) {off : Nat} {img : KernelImage}, Checked file img →
    Safe (parseCommands file n off img) (Checked file) := by
  intro n
  induction n with
  | zero => intro off img h; exact .pure h
  | succ n ih =>
    intro off img h
    refine .ite (fun _ => .throw) fun hroom => (safe_read32 (by omega)).bind fun cmd _ =>
      (safe_read32 (by omega)).bind fun cmdsize _ => .ite (fun _ => .throw) fun _ => .ite (fun _ => .throw) fun hin => ?_
    exact (parseCommand_safe (by omega) h).bind fun img h => ih h

/-- The parser reads nothing outside the file, whatever the file holds. -/
theorem parseKernelMacho_safe (file : List UInt8) :
    Safe (parseKernelMacho file) fun img => Checked file img ∧ img.entryPc ≠ 0 := by
  refine .ite (fun _ => .throw) fun hsize => (safe_read32 (by omega)).bind fun magic _ =>
    (safe_read32 (by omega)).bind fun cputype _ => (safe_read32 (by omega)).bind fun filetype _ =>
    (safe_read32 (by omega)).bind fun ncmds _ => (safe_read32 (by omega)).bind fun sizeofcmds _ => ?_
  refine .ite (fun _ => .throw) fun _ => .ite (fun _ => .throw) fun _ => .ite (fun _ => .throw) fun _ =>
    .ite (fun _ => .throw) fun _ => ?_
  exact (parseCommands_safe ncmds.toNat (empty_checked file)).bind fun img h =>
    .ite (fun _ => .throw) fun hentry => .pure ⟨h, hentry⟩

end Panthera.Boot
