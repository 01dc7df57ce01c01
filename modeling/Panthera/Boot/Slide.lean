/-
  Panthera.Boot.Slide — the passes over the staged kernel that move it to where it was
  loaded (`panthera_loader.c`: `panthera_rebase_kernel_locals`,
  `panthera_slide_kernel_macho_metadata`; `bootx64.c`:
  `panthera_patch_hib_startup_immediates`).

  The two passes of the loader change the memory in one way only, by adding the slide to a
  word. `Sliding` keeps, beside the memory, the addresses of the words that this was done
  to, in order. The loops read their bounds in the memory again at each turn, as the source
  does; the fuel is what a counter of 32 bits can count.
-/

import Panthera.Boot.Stage

namespace Panthera.Boot

open Lib.Bytes

/-! ## Addresses -/

/-- `panthera_loaded_vmaddr`; zero is the null pointer. -/
def loadedVmaddr (img : KernelImage) (base vmaddr size : UInt64) : UInt64 :=
  if vmaddr < img.lowestVmaddr then 0
  else if img.highestVmaddr - vmaddr < size then 0
  else base + (vmaddr - img.lowestVmaddr)

/-- The address of a part of the file: the first segment that has all of the bytes decides. -/
def vmaddrOfFile (img : KernelImage) (off size : UInt64) : Option UInt64 :=
  (img.segments.find? fun s =>
    s.filesize ≠ 0 ∧ s.fileoff ≤ off ∧ off - s.fileoff ≤ s.filesize ∧ size ≤ s.filesize - (off - s.fileoff)).map fun s =>
      s.vmaddr + (off - s.fileoff)

/-- `panthera_loaded_file_offset` -/
def loadedFileOffset (img : KernelImage) (base off size : UInt64) : UInt64 :=
  match vmaddrOfFile img off size with
  | some vmaddr => loadedVmaddr img base vmaddr size
  | none => 0

/-- `panthera_name_equals` for a name that leaves room for its NUL. -/
def nameEquals (field : List UInt8) (name : String) : Bool :=
  field.take (name.length + 1) = (nameField16 name).take (name.length + 1)

/-- `panthera_find_segment` -/
def findSegment (img : KernelImage) (name : String) : Option KernelSegment :=
  img.segments.find? fun s => nameEquals s.segname name

def slideOf (img : KernelImage) (base : UInt64) : UInt64 := base - img.lowestVmaddr.toUInt32.toUInt64

/-! ## Sliding a word -/

structure Sliding where
  mem : Mem
  slid : List UInt64

/-- `*slot += slide` -/
def Sliding.slide (delta : UInt64) (st : Sliding) (slot : UInt64) : Sliding where
  mem := write64 st.mem slot.toNat (read64 st.mem slot.toNat + delta)
  slid := st.slid ++ [slot]

/-! ## Local relocations -/

/-- `PantheraRelocationInfo` -/
structure Relocation where
  address : UInt32
  info : UInt32
  deriving DecidableEq, Repr

/-- The section a relocation is against, if it is one that is applied: absolute, local,
    unsigned and of 8 bytes. -/
def relocSection (img : KernelImage) (info : UInt32) : Option KernelSection :=
  let symbolnum := info &&& 0x00ffffff
  if symbolnum = 0 ∨ UInt32.ofNat img.sections.length < symbolnum then none
  else if (info >>> 24) &&& 1 ≠ 0 ∨ (info >>> 27) &&& 1 ≠ 0 then none
  else if (info >>> 28) &&& 0xf ≠ 0 ∨ (info >>> 25) &&& 3 ≠ 3 then none
  else img.sections[symbolnum.toNat - 1]?

/-- The address of a relocation is signed. -/
def patchVmaddr (relocBase : UInt64) (address : UInt32) : UInt64 :=
  if address < 0x80000000 then relocBase + address.toUInt64 else relocBase - (0x100000000 - address.toUInt64)

/-- The two descriptors of the startup code, which are patched later. -/
def isGdtSlot (img : KernelImage) (vmaddr : UInt64) : Bool :=
  vmaddr = img.lowestVmaddr + 0x1042 ∨ vmaddr = img.lowestVmaddr + 0x99002

def applyReloc (img : KernelImage) (base relocBase : UInt64) (st : Sliding) (r : Relocation) : Except LoaderStatus Sliding :=
  match relocSection img r.info with
  | none => .ok st
  | some target =>
    let patch := patchVmaddr relocBase r.address
    if isGdtSlot img patch then .ok st
    else
      let slot := loadedVmaddr img base patch 8
      if slot = 0 then .error .badReloc
      else
        let candidate := read64 st.mem slot.toNat
        if candidate < target.addr ∨ target.addr + target.size ≤ candidate then .error .badReloc
        else .ok (st.slide (slideOf img base) slot)

def relocations (file : List UInt8) (img : KernelImage) : List Relocation :=
  (List.range img.localRelocCount.toNat).map fun i =>
    ⟨read32 (memOf file) (img.localRelocOffset.toNat + 8 * i), read32 (memOf file) (img.localRelocOffset.toNat + 8 * i + 4)⟩

def rebaseKernelLocals (file : List UInt8) (img : KernelImage) (base : UInt64) (st : Sliding) : Except LoaderStatus Sliding :=
  if base = 0 then .error .null
  else if slideOf img base = 0 ∨ img.localRelocCount = 0 then .ok st
  else if file.length < img.localRelocOffset.toNat + img.localRelocCount.toNat * 8 then .error .truncated
  else match findSegment img "__DATA" with
    | none => .error .badReloc
    | some s => if s.vmaddr = 0 then .error .badReloc else (relocations file img).foldlM (applyReloc img base s.vmaddr) st

/-! ## Header, sections and symbols -/

def bytesAt (mem : Mem) (a n : Nat) : List UInt8 := (List.range n).map fun i => mem (a + i)

/-- A slot of a section of pointers: it is slid if what it holds is an address of the image. -/
def slidePointer (img : KernelImage) (delta : UInt64) (st : Sliding) (slot : UInt64) : Sliding :=
  let candidate := read64 st.mem slot.toNat
  if img.lowestVmaddr ≤ candidate ∧ candidate < img.highestVmaddr then st.slide delta slot else st

def slotsFrom (start size : UInt64) : List UInt64 := (List.range (size / 8).toNat).map fun i => start + 8 * UInt64.ofNat i

/-- `__DATA_CONST,__got` and `__DATA_CONST,__mod_init_func` -/
def isPointerSection (mem : Mem) (segment sect : UInt64) : Bool :=
  nameEquals (bytesAt mem (segment + 8).toNat 16) "__DATA_CONST" ∧
    (nameEquals (bytesAt mem sect.toNat 16) "__got" ∨ nameEquals (bytesAt mem sect.toNat 16) "__mod_init_func")

def slideSection (img : KernelImage) (base : UInt64) (segment sect : UInt64) (st : Sliding) : Except LoaderStatus Sliding :=
  let original := read64 st.mem (sect + 32).toNat
  let st := if original ≠ 0 then st.slide (slideOf img base) (sect + 32) else st
  if isPointerSection st.mem segment sect then
    let size := read64 st.mem (sect + 40).toNat
    let slot := loadedVmaddr img base original size
    if slot = 0 then .error .badReloc else .ok ((slotsFrom slot size).foldl (slidePointer img (slideOf img base)) st)
  else .ok st

def slideSections (img : KernelImage) (base : UInt64) (segment : UInt64) : Nat → UInt32 → Sliding → Except LoaderStatus Sliding
  | 0, _, st => .ok st
  | fuel + 1, index, st =>
    if index < read32 st.mem (segment + 64).toNat then do
      let st ← slideSection img base segment (segment + 72 + 80 * index.toUInt64) st
      slideSections img base segment fuel (index + 1) st
    else .ok st

/-- One load command; the second component is `symtab_command`. -/
def slideCommand (img : KernelImage) (base lc symtab : UInt64) (st : Sliding) : Except LoaderStatus (Sliding × UInt64) :=
  let cmd := read32 st.mem lc.toNat
  let cmdsize := read32 st.mem (lc + 4).toNat
  if cmd = 0x19 then
    if cmdsize.toNat < 72 + (read32 st.mem (lc + 64).toNat).toNat * 80 then .error .truncated
    else do
      let st ← slideSections img base lc (2 ^ 32) 0 (st.slide (slideOf img base) (lc + 24))
      .ok (st, symtab)
  else if cmd = 0x5 then
    if cmdsize.toNat < 184 then .error .truncated else .ok (st.slide (slideOf img base) (lc + 144), symtab)
  else if cmd = 0x2 then .ok (st, lc)
  else .ok (st, symtab)

def slideCommands (img : KernelImage) (base header : UInt64) :
    Nat → UInt32 → UInt64 → UInt64 → Sliding → Except LoaderStatus (Sliding × UInt64)
  | 0, _, _, symtab, st => .ok (st, symtab)
  | fuel + 1, index, lc, symtab, st =>
    if index < read32 st.mem (header + 16).toNat then
      if read32 st.mem (lc + 4).toNat < 8 then .error .truncated
      else do
        let r ← slideCommand img base lc symtab st
        slideCommands img base header fuel (index + 1) (lc + (read32 r.1.mem (lc + 4).toNat).toUInt64) r.2 r.1
    else .ok (st, symtab)

/-- `panthera_symbol_is_section_based` -/
def symbolIsSectionBased (nType : UInt8) : Bool :=
  if nType &&& 0xe0 ≠ 0 then
    nType ∈ [0x26, 0x28, 0x2e, 0x44, 0x4e, 0x64, 0x84, 0xa4, 0xe4, 0xe8, 0xe0, 0xc0]
  else nType &&& 0x0e = 0x0e

def slideSymbol (img : KernelImage) (delta : UInt64) (st : Sliding) (symbol : UInt64) : Sliding :=
  let value := read64 st.mem (symbol + 8).toNat
  if symbolIsSectionBased (st.mem (symbol + 4).toNat) ∧ st.mem (symbol + 5).toNat ≠ 0 ∧ value ≠ 0 ∧
      img.lowestVmaddr ≤ value ∧ value < img.highestVmaddr then
    st.slide delta (symbol + 8)
  else st

def slideSymbols (img : KernelImage) (delta symtab symbols : UInt64) : Nat → UInt32 → Sliding → Sliding
  | 0, _, st => st
  | fuel + 1, index, st =>
    if index < read32 st.mem (symtab + 12).toNat then
      slideSymbols img delta symtab symbols fuel (index + 1) (slideSymbol img delta st (symbols + 16 * index.toUInt64))
    else st

/-- The symbol table of the last `LC_SYMTAB`, if there was one. -/
def slideSymtab (img : KernelImage) (base symtab : UInt64) (st : Sliding) : Except LoaderStatus Sliding :=
  let nsyms := read32 st.mem (symtab + 12).toNat
  if symtab = 0 ∨ nsyms = 0 then .ok st
  else
    let symbols := loadedFileOffset img base (read32 st.mem (symtab + 8).toNat).toUInt64 (nsyms.toUInt64 * 16)
    if symbols = 0 then .error .badReloc else .ok (slideSymbols img (slideOf img base) symtab symbols (2 ^ 32) 0 st)

def slideKernelMachoMetadata (img : KernelImage) (base : UInt64) (st : Sliding) : Except LoaderStatus Sliding :=
  if base = 0 then .error .null
  else if slideOf img base = 0 then .ok st
  else match findSegment img "__TEXT" with
    | none => .error .badReloc
    | some text =>
      let header := loadedVmaddr img base text.vmaddr 32
      if header = 0 then .error .badReloc
      else if read32 st.mem header.toNat ≠ 0xfeedfacf then .error .badMagic
      else if loadedVmaddr img base text.vmaddr (32 + (read32 st.mem (header + 20).toNat).toUInt64) = 0 then .error .truncated
      else do
        let r ← slideCommands img base header (2 ^ 32) 0 (header + 32) 0 st
        slideSymtab img base r.2 r.1

/-! ## The startup code -/

/-- A word of the startup code: where it is, the opcode before it if it is an immediate, and
    what it was linked as. -/
structure StartupWord where
  offset : Nat
  opcode : Option UInt8
  linked : UInt32

def startupWords (linkedBase : UInt32) : List StartupWord :=
  [⟨2, some 0xbc, 0x00199000⟩, ⟨7, some 0xb8, 0x00101040⟩, ⟨15, some 0xb8, 0x00105000⟩, ⟨28, some 0xba, 0x00106000⟩,
    ⟨66, some 0xb8, 0x00105000⟩, ⟨85, some 0xea, linkedBase + 0x5c⟩, ⟨0x1042, none, 0x00139000⟩, ⟨0x99002, none, 0x00139000⟩]

/-- `panthera_patch_u32_imm` and, without an opcode, `panthera_patch_u32_value` -/
def patchStartupWord (delta : UInt32) (imageBase : Nat) (mem : Mem) (w : StartupWord) : Except EfiStatus Mem :=
  match w.opcode with
  | some opcode =>
    if mem (imageBase + w.offset) ≠ opcode ∨ read32 mem (imageBase + w.offset + 1) ≠ w.linked then .error efiNotFound
    else .ok (write32 mem (imageBase + w.offset + 1) (w.linked + delta))
  | none =>
    if read32 mem (imageBase + w.offset) ≠ w.linked then .error efiNotFound
    else .ok (write32 mem (imageBase + w.offset) (w.linked + delta))

def patchHibStartupImmediates (img : KernelImage) (base : UInt64) (mem : Mem) : Except EfiStatus Mem :=
  let linkedBase := img.lowestVmaddr.toUInt32
  let delta := base.toUInt32 - linkedBase
  if delta = 0 then .ok mem
  else (startupWords linkedBase).foldlM (patchStartupWord delta base.toNat) mem

end Panthera.Boot
