/-
  Panthera.Boot.EfiMain — the loader from its start to the kernel's
  (`bootx64.c`: `EfiMain` and what it calls).
-/

import Panthera.Boot.CommandLine
import Panthera.Boot.Firmware
import Panthera.Boot.Slide

namespace Panthera.Boot

open Lib.Bytes Lib.Ranges Lib.Steps Lib.Wire

section

variable {σ : Type} (fw : Firmware σ)

/-! ## Files -/

/-- A buffer of the pool and what it holds; a null buffer is empty. -/
structure LoadedFile where
  buffer : UInt64
  bytes : List UInt8

def freePool (buffer : UInt64) : Loader σ Unit := if buffer = 0 then pure () else service (fw.freePool buffer)

def closeFiles (files : List UInt64) : Loader σ Unit := files.forM fun f => service (fw.closeFile f)

/-- The second half of `panthera_load_kernel_file`, with the file open. -/
def readWholeFile (root file : UInt64) : Loader σ LoadedFile := do
  let info ← service (fw.getInfoSize file)
  if info.1 ≠ efiBufferTooSmall ∨ info.2 = 0 then do
    closeFiles fw [file, root]
    -- a status that is no error is returned as it is, and the buffer stays null
    if efiError info.1 then throw info.1 else pure ⟨0, []⟩
  else do
    let infoBuffer ← service (fw.allocatePool info.2)
    if efiError infoBuffer.1 then do
      closeFiles fw [file, root]
      throw infoBuffer.1
    else do
      let size ← service (fw.getFileSize file info.2)
      if efiError size.1 then do
        freePool fw infoBuffer.2
        closeFiles fw [file, root]
        throw size.1
      else do
        let buffer ← service (fw.allocatePool size.2)
        if efiError buffer.1 then do
          freePool fw infoBuffer.2
          closeFiles fw [file, root]
          throw buffer.1
        else do
          let data ← service (fw.readFile file size.2)
          if efiError data.1 ∨ UInt64.ofNat data.2.length ≠ size.2 then do
            freePool fw buffer.2
            freePool fw infoBuffer.2
            closeFiles fw [file, root]
            throw efiNotFound
          else do
            freePool fw infoBuffer.2
            closeFiles fw [file, root]
            pure ⟨buffer.2, data.2⟩

def loadKernelFile (imageHandle : UInt64) (path : String) : Loader σ LoadedFile := do
  let loadedImage ← checked (fw.handleProtocol imageHandle .loadedImage)
  let device ← service (fw.deviceHandle loadedImage)
  let fileSystem ← checked (fw.handleProtocol device .simpleFileSystem)
  let root ← checked (fw.openVolume fileSystem)
  let file ← service (fw.openFile root path)
  if efiError file.1 then do
    closeFiles fw [root]
    throw file.1
  else readWholeFile fw root file.2

def tryLoadKernel (imageHandle : UInt64) : Loader σ LoadedFile := do
  match ← (loadKernelFile fw imageHandle "\\mach_kernel").attempt with
  | .ok file => pure file
  | .error _ => loadKernelFile fw imageHandle "\\EFI\\PANTHERA\\kernel"

def loadBootCommandLine (imageHandle : UInt64) : Loader σ (List UInt8) := do
  match ← (loadKernelFile fw imageHandle "\\EFI\\PANTHERA\\boot-args.txt").attempt with
  | .ok file => do
    freePool fw file.buffer
    pure (if file.buffer ≠ 0 ∧ file.bytes ≠ [] then commandLineOf file.bytes else defaultBootArgs)
  | .error _ => pure defaultBootArgs

/-! ## The kernel -/

def liftExcept {ε α : Type} (r : Except ε α) : ExceptT ε Option α := ExceptT.mk (some r)

/-- A status of the parser or of the passes is `EFI_NOT_FOUND` to the loader. -/
def loaderStatus {α : Type} (r : Except LoaderStatus α) : Loader σ α :=
  Program.ofFallible (liftExcept (r.mapError fun _ => efiNotFound))

/-- The kernel where it was staged. -/
structure StagedKernel where
  base : UInt64
  mem : Mem

/-- The kernel's pages: where it was linked, or anywhere. -/
def allocateKernelPages (img : KernelImage) : Loader σ UInt64 := do
  match ← (allocatePagesAt fw img.span img.lowestVmaddr.toUInt32.toUInt64).attempt with
  | .ok base => pure base
  | .error _ => allocatePages fw img.span

/-- `mem` is what the memory holds before. -/
def stageKernelImage (file : List UInt8) (img : KernelImage) (mem : Mem) : Loader σ StagedKernel := do
  let base ← allocateKernelPages fw img
  modifyMachine fun m => { m with kernelReservedSize := img.span }
  let mem ← Program.ofFallible (stageSegments file img base ⟨base.toNat, (pagesFor img.span).toNat * 4096⟩ mem)
  let st ← loaderStatus (rebaseKernelLocals file img base ⟨mem, []⟩)
  let st ← loaderStatus (slideKernelMachoMetadata img base st)
  modifyMachine fun m => { m with kernelBootDataCursor := alignPage (base + img.span) }
  let mem ← Program.ofFallible (liftExcept (patchHibStartupImmediates img base st.mem))
  pure ⟨base, mem⟩

/-- `panthera_compute_entry_physical_base` -/
def entryPhysicalBase (img : KernelImage) (base : UInt64) : UInt64 :=
  if img.entryPc < img.lowestVmaddr ∨ img.highestVmaddr ≤ img.entryPc then 0 else base + (img.entryPc - img.lowestVmaddr)

/-- From the parsed image to the checks of where its text and its entry are; the second
    component is `gKernelEntryBase`. -/
def placeKernel (file : List UInt8) (img : KernelImage) (mem : Mem) : Loader σ (StagedKernel × UInt64) := do
  let staged ← stageKernelImage fw file img mem
  match findSegment img "__TEXT" with
  | none => throw efiNotFound
  | some text => do
    let textBase := segmentPhysicalBase img staged.base text
    modifyMachine fun m => { m with kernelTextBase := textBase }
    let entry := entryPhysicalBase img staged.base
    if entry = 0 then throw efiNotFound
    else do
      ensureLow32 textBase
      ensureLow32 entry
      pure (staged, entry)

/-! ## Boot kexts -/

/-- `PantheraBootKextManifestEntry` -/
structure ManifestEntry where
  bundlePath : String
  infoPath : String
  executablePath : Option String
  driverEntryName : String
  requiredBootArg : Option String

/-- A kernel interface of `System.kext`, which has no executable of its own. -/
def kernelInterface (name dir : String) : ManifestEntry where
  bundlePath := "/System/Library/Extensions/System.kext/PlugIns/" ++ dir ++ ".kext"
  infoPath := "\\System\\Library\\Extensions\\System.kext\\PlugIns\\" ++ dir ++ ".kext\\Info.plist"
  executablePath := none
  driverEntryName := "Driver-" ++ name
  requiredBootArg := none

def driver (name : String) (requiredBootArg : Option String) : ManifestEntry where
  bundlePath := "/System/Library/Extensions/" ++ name ++ ".kext"
  infoPath := "\\System\\Library\\Extensions\\" ++ name ++ ".kext\\Contents\\Info.plist"
  executablePath := some ("\\System\\Library\\Extensions\\" ++ name ++ ".kext\\Contents\\MacOS\\" ++ name)
  driverEntryName := "Driver-" ++ name
  requiredBootArg := requiredBootArg

def bootKextManifest : List ManifestEntry :=
  [⟨"/System/Library/Extensions/System.kext", "\\System\\Library\\Extensions\\System.kext\\Info.plist", none,
      "Driver-SystemKernel", none⟩,
    kernelInterface "BSDKernel" "BSDKernel", kernelInterface "IOKitKPI" "IOKit", kernelInterface "LibkernKPI" "Libkern",
    kernelInterface "MachKPI" "Mach", kernelInterface "PrivateKPI" "Private", kernelInterface "UnsupportedKPI" "Unsupported",
    driver "corecrypto" (some "panthera_zfs_spl=1"), driver "spl" (some "panthera_zfs_spl=1"),
    driver "zfs" (some "panthera_zfs=1"), driver "AppleAPIC" none, driver "AppleSMBIOS" none, driver "AppleI386PCI" none,
    driver "AppleI386GenericPlatform" none, driver "IOACPIFamily" none, driver "IOPCIFamily" none, driver "IOHIDFamily" none,
    driver "IOUSBFamily" (some "panthera_usbhid=1"), driver "AppleUSBEHCI" (some "panthera_usbhid=1"),
    driver "AppleUSBUHCI" (some "panthera_usbhid=1"), driver "AppleUSBHub" (some "panthera_usbhid=1"),
    driver "IOUSBCompositeDriver" (some "panthera_usbhid=1"), driver "IOUSBHIDDriver" (some "panthera_usbhid=1"),
    driver "IONetworkingFamily" none, driver "AppleRTL8139Ethernet" none, driver "IOHIDSystem" none,
    driver "IOStorageFamily" none, driver "HFSEncodings" none, driver "HFS" none, driver "IOATAFamily" none,
    driver "AppleIntelPIIXATA" none, driver "PantheraATAStorage" none, driver "IOGraphicsFamily" (some "panthera_iog=1")]

/-- `PantheraBooterKextFileInfo` -/
structure KextFileInfo where
  infoDictPhysAddr : UInt32
  infoDictLength : UInt32
  executablePhysAddr : UInt32
  executableLength : UInt32
  bundlePathPhysAddr : UInt32
  bundlePathLength : UInt32

/-- `PantheraBootKextRecord`, with the file-info record that lies at `fileInfoBase`. -/
structure KextRecord where
  driverEntryName : CString
  infoDictBase : UInt64
  infoDictSize : UInt64
  executableBase : UInt64
  executableSize : UInt64
  bundlePathBase : UInt64
  bundlePathSize : UInt64
  fileInfo : KextFileInfo
  fileInfoBase : UInt64
  deviceTreeBuffer : DeviceTreeBuffer

/-- The base and the size of the pages. -/
def loadFileToPages (imageHandle : UInt64) (path : String) (trailingZeroBytes : UInt64) : Loader σ (UInt64 × UInt64) := do
  let file ← loadKernelFile fw imageHandle path
  let size := UInt64.ofNat file.bytes.length + trailingZeroBytes
  match ← (allocateKernelBootDataPages fw size).attempt with
  | .error status => do
    freePool fw file.buffer
    throw status
  | .ok base => do
    freePool fw file.buffer
    ensureLow32 base
    pure (base, size)

/-- `panthera_copy_buffer_to_kernel_boot_data` and the check of where the copy is. -/
def copyToKernelBootData (size : UInt64) : Loader σ UInt64 := do
  let base ← allocateKernelBootDataPages fw size
  ensureLow32 base
  pure base

/-- A kext without an executable has none to load. -/
def loadExecutable (imageHandle : UInt64) : Option String → Loader σ (UInt64 × UInt64)
  | none => pure (0, 0)
  | some path => loadFileToPages fw imageHandle path 0

def stageBootKext (imageHandle : UInt64) (entry : ManifestEntry) : Loader σ KextRecord := do
  let info ← loadFileToPages fw imageHandle entry.infoPath 1
  let executable ← loadExecutable fw imageHandle entry.executablePath
  let bundlePathSize := UInt64.ofNat ((ascii entry.bundlePath).bytes.length + 1)
  let bundlePathBase ← copyToKernelBootData fw bundlePathSize
  let fileInfo : KextFileInfo := {
    infoDictPhysAddr := info.1.toUInt32
    infoDictLength := info.2.toUInt32
    executablePhysAddr := executable.1.toUInt32
    executableLength := executable.2.toUInt32
    bundlePathPhysAddr := bundlePathBase.toUInt32
    bundlePathLength := bundlePathSize.toUInt32 }
  let fileInfoBase ← copyToKernelBootData fw 24
  pure {
    driverEntryName := ascii entry.driverEntryName
    infoDictBase := info.1
    infoDictSize := info.2
    executableBase := executable.1
    executableSize := executable.2
    bundlePathBase := bundlePathBase
    bundlePathSize := bundlePathSize
    fileInfo := fileInfo
    fileInfoBase := fileInfoBase
    deviceTreeBuffer := ⟨fileInfoBase.toUInt32, 24⟩ }

/-- The kexts that the command line asks for, in the order of the manifest. -/
def stageBootKexts (imageHandle : UInt64) (commandLine : List UInt8) : Loader σ (List KextRecord) :=
  (bootKextManifest.filter fun entry => entry.requiredBootArg.all fun arg =>
    commandLineHasToken commandLine (ascii arg).bytes).mapM (stageBootKext fw imageHandle)

/-- `panthera_build_synthetic_device_tree`; the base and `gDeviceTreeSize`. -/
def makeDeviceTree (fsbFrequencyHz : UInt64) (kexts : List KextRecord) : Loader σ (UInt64 × UInt32) := do
  let base ← allocatePages fw (UInt64.ofNat deviceTreeMaxSize)
  match buildSyntheticDeviceTree fsbFrequencyHz (kexts.map fun k => ⟨k.driverEntryName, k.deviceTreeBuffer⟩) with
  | none => throw efiOutOfResources
  | some (_, size) => pure (base, size)

/-! ## The memory map and the boot arguments -/

/-- `memory_map` and what came with it; `pointer` is the buffer's address. -/
structure CapturedMap where
  pointer : UInt64
  size : UInt64
  capacity : UInt64
  descriptorSize : UInt64
  descriptorVersion : UInt32
  map : Mem

def captureMemoryMap : Loader σ CapturedMap := do
  let r ← service (fw.getMemoryMap 0 0)
  if r.status ≠ efiBufferTooSmall then
    if efiError r.status then throw r.status else pure ⟨0, 0, 0, r.descriptorSize, r.descriptorVersion, r.map⟩
  else do
    let capacity := if 1048576 < r.size then r.size else 1048576
    let base ← allocatePages fw capacity
    let r ← service (fw.getMemoryMap capacity base)
    if efiError r.status then throw r.status
    else pure ⟨base, r.size, capacity, r.descriptorSize, r.descriptorVersion, r.map⟩

/-- `EfiMemoryRange` -/
structure MemoryRange where
  physicalStart : UInt64
  numberOfPages : UInt64
  attributes : UInt64

/-- The descriptors from `off` on. A descriptor size of zero is a loop without an end. -/
def memoryRanges (map : Mem) (size descriptorSize : Nat) : Nat → Nat → Option (List MemoryRange)
  | 0, _ => none
  | fuel + 1, off =>
    if off < size then
      (memoryRanges map size descriptorSize fuel (off + descriptorSize)).map
        (⟨read64 map (off + 8), read64 map (off + 24), read64 map (off + 32)⟩ :: ·)
    else some []

/-- `panthera_compute_physical_memory_size` -/
def physicalMemorySize (ranges : List MemoryRange) : UInt64 :=
  ranges.foldl (fun (highest : UInt64) (r : MemoryRange) =>
    let stop := r.physicalStart + (r.numberOfPages <<< 12)
    if highest < stop then stop else highest) 0

/-- `runtime_start` and `runtime_count` -/
def runtimePages (ranges : List MemoryRange) : UInt64 × UInt32 :=
  ranges.foldl (fun (st : UInt64 × UInt32) (r : MemoryRange) =>
    if r.attributes &&& 0x8000000000000000 ≠ 0 then
      (if st.2 = 0 then r.physicalStart >>> 12 else st.1, st.2 + r.numberOfPages.toUInt32)
    else st) (0, 0)

/-- The fields of `boot_args` that depend on anything. -/
structure BootArgs where
  commandLine : List UInt8
  memoryMap : UInt32
  memoryMapSize : UInt32
  memoryMapDescriptorSize : UInt32
  memoryMapDescriptorVersion : UInt32
  deviceTreeP : UInt32
  deviceTreeLength : UInt32
  kaddr : UInt32
  ksize : UInt32
  efiSystemTable : UInt32
  physicalMemorySize : UInt64
  fsbFrequency : UInt64
  video : Option Gop
  videoV1BaseAddr : UInt32
  efiRuntimeServicesPageStart : UInt32
  efiRuntimeServicesPageCount : UInt32

/-- The globals and locals of `EfiMain` that the boot arguments and the hand-off are made of. -/
structure Placed where
  commandLine : List UInt8
  fsbFrequencyHz : UInt64
  gop : Option Gop
  memoryMap : UInt64
  memoryMapCapacity : UInt64
  systemTable : UInt64
  bootArgs : UInt64
  kernelEntry : UInt64
  kexts : List KextRecord
  deviceTree : UInt64
  deviceTreeSize : UInt32
  handoffStack : UInt64

/-- `panthera_fill_boot_args`; `none` if it does not end. -/
def fillBootArgs (p : Placed) (textBase reservedSize : UInt64) (mapSize descriptorSize : UInt64) (descriptorVersion : UInt32)
    (map : Mem) : Option BootArgs := do
  let ranges ← memoryRanges map mapSize.toNat descriptorSize.toNat (mapSize.toNat + 1) 0
  some {
    commandLine := p.commandLine.take 1023
    memoryMap := p.memoryMap.toUInt32
    memoryMapSize := mapSize.toUInt32
    memoryMapDescriptorSize := descriptorSize.toUInt32
    memoryMapDescriptorVersion := descriptorVersion
    deviceTreeP := p.deviceTree.toUInt32
    deviceTreeLength := p.deviceTreeSize
    kaddr := textBase.toUInt32
    ksize := reservedSize.toUInt32
    efiSystemTable := p.systemTable.toUInt32
    physicalMemorySize := physicalMemorySize ranges
    fsbFrequency := p.fsbFrequencyHz
    video := p.gop.filter fun g => g.frameBufferBase ≠ 0
    videoV1BaseAddr := (p.gop.filter fun g => g.frameBufferBase ≠ 0).elim 0 fun g => g.frameBufferBase.toUInt32
    efiRuntimeServicesPageStart := (runtimePages ranges).1.toUInt32
    efiRuntimeServicesPageCount := (runtimePages ranges).2 }

/-! ## The hand-off -/

def handoffStackSize : UInt64 := 16384

/-- What the kernel is entered with, and what the loader had placed where. -/
structure HandOff where
  args : BootArgs
  bootArgsPhys : UInt32
  kernelEntryPhys : UInt32
  stackTopPhys : UInt32
  placed : Placed
  textBase : UInt64

/-- `panthera_exit_boot_services_and_enter_kernel` with so many attempts left; `status` is that
    of the last. -/
def enterKernel (p : Placed) : Nat → EfiStatus → Loader σ HandOff
  | 0, status => throw status
  | attempts + 1, _ => do
    let r ← service (fw.getMemoryMap p.memoryMapCapacity p.memoryMap)
    if efiError r.status then throw r.status
    else do
      let m ← getMachine
      let args ← Program.ofFallible
        (liftM (fillBootArgs p m.kernelTextBase m.kernelReservedSize r.size r.descriptorSize r.descriptorVersion r.map))
      let status ← service (fw.exitBootServices r.mapKey)
      if efiError status then enterKernel p attempts status
      else pure {
        args := args
        bootArgsPhys := p.bootArgs.toUInt32
        kernelEntryPhys := p.kernelEntry.toUInt32
        stackTopPhys := (p.handoffStack + handoffStackSize).toUInt32
        placed := p
        textBase := m.kernelTextBase }

def calibrateTscFrequency : Loader σ UInt64 := do
  let start ← service fw.readTsc
  let status ← service (fw.stall 100000)
  if efiError status then pure 100000000
  else do
    let stop ← service fw.readTsc
    let frequency := ((stop - start) * 1000000) / 100000
    if stop ≤ start ∨ frequency < 10000000 ∨ 10000000000 < frequency then pure 100000000 else pure frequency

/-- What the loader is started with: its handle, the number of configuration tables of the
    system table, and the size of the code that enters the kernel. -/
structure Start where
  imageHandle : UInt64
  numberOfTableEntries : UInt64
  handoffTemplateSize : UInt64

/-- `panthera_allocate_buffer_pages` and the check of where the pages are. -/
def allocateLow32 (size : UInt64) : Loader σ UInt64 := do
  let base ← allocatePages fw size
  ensureLow32 base
  pure base

/-- What is known once the kexts are staged. -/
structure Prepared where
  fsbFrequencyHz : UInt64
  gop : Option Gop
  kernelEntry : UInt64
  map : CapturedMap
  systemTable : UInt64
  bootArgs : UInt64
  commandLine : List UInt8
  kexts : List KextRecord

/-- `EfiMain` to the staging of the kexts; `mem` is what the memory holds when the kernel is
    staged into it. -/
def prepare (start : Start) (mem : Mem) : Loader σ Prepared := do
  let fsbFrequencyHz ← calibrateTscFrequency fw
  let gop ← service fw.locateGop
  let kernelFile ← tryLoadKernel fw start.imageHandle
  if kernelFile.buffer = 0 then throw efiNotFound
  else do
    let img ← Program.ofFallible (parseKernelMacho kernelFile.bytes |>.adapt fun _ => efiNotFound)
    let kernel ← placeKernel fw kernelFile.bytes img mem
    freePool fw kernelFile.buffer
    let map ← captureMemoryMap fw
    let systemTable ← allocateLow32 fw (120 + start.numberOfTableEntries * 24)
    let bootArgs ← allocateLow32 fw 4096
    let commandLine ← loadBootCommandLine fw start.imageHandle
    let kexts ← stageBootKexts fw start.imageHandle commandLine
    pure {
      fsbFrequencyHz := fsbFrequencyHz
      gop := gop
      kernelEntry := kernel.2
      map := map
      systemTable := systemTable
      bootArgs := bootArgs
      commandLine := commandLine
      kexts := kexts }

/-- The device tree, and the code and the stack that the kernel is entered with. -/
def placeHandoff (start : Start) (q : Prepared) : Loader σ Placed := do
  let deviceTree ← makeDeviceTree fw q.fsbFrequencyHz q.kexts
  ensureLow32 deviceTree.1
  let _ ← allocateLow32 fw start.handoffTemplateSize
  let handoffStack ← allocatePages fw handoffStackSize
  ensureLow32 (handoffStack + handoffStackSize)
  pure {
    commandLine := q.commandLine
    fsbFrequencyHz := q.fsbFrequencyHz
    gop := q.gop
    memoryMap := q.map.pointer
    memoryMapCapacity := q.map.capacity
    systemTable := q.systemTable
    bootArgs := q.bootArgs
    kernelEntry := q.kernelEntry
    kexts := q.kexts
    deviceTree := deviceTree.1
    deviceTreeSize := deviceTree.2
    handoffStack := handoffStack }

def efiMain (start : Start) (mem : Mem) : Loader σ HandOff := do
  let q ← prepare fw start mem
  let p ← placeHandoff fw start q
  let m ← getMachine
  -- the boot arguments are filled in once before the last memory map is known
  let _ ← Program.ofFallible (liftM (fillBootArgs p m.kernelTextBase m.kernelReservedSize q.map.size q.map.descriptorSize
    q.map.descriptorVersion q.map.map))
  enterKernel fw p 4 efiNotFound

end

end Panthera.Boot
