/-
  Panthera.Boot.HandOff — the addresses that the kernel gets in fields of 32 bits.

  The loader allocates below 4 GiB where it can and elsewhere where it cannot, and checks
  what it was given before it narrows it. Proved, for every firmware: at the hand-off every
  narrowed address but one is the whole address, and that one, of the memory map, which is
  not checked, is if it is below 4 GiB (`handoff_addresses_iff`).

  Each of the loader's programs that allocates is followed to its check; what is narrowed
  much later, `gKernelTextBase`, is followed through everything that runs in between
  (`Keeps Machine.kernelTextBase`).
-/

import Panthera.Boot.BootData

namespace Panthera.Boot

open Lib.Bytes Lib.Steps Lib.Wire

variable {σ : Type} {fw : Firmware σ} {m m' : Machine σ}

/-! ## Narrowed addresses -/

/-- A field of 32 bits that holds the whole address. -/
def Whole (field : UInt32) (address : UInt64) : Prop := field.toUInt64 = address

instance (field : UInt32) (address : UInt64) : Decidable (Whole field address) :=
  inferInstanceAs (Decidable (field.toUInt64 = address))

theorem whole_iff {address : UInt64} : Whole address.toUInt32 address ↔ address.toNat < 2 ^ 32 := by
  rw [Whole, ← UInt64.toNat_inj, UInt32.toNat_toUInt64, UInt64.toNat_toUInt32]
  omega

/-- The addresses of a kext in its file-info record, and that of the record in the device tree. -/
structure KextRecord.Whole (k : KextRecord) : Prop where
  infoDict : Boot.Whole k.fileInfo.infoDictPhysAddr k.infoDictBase
  executable : Boot.Whole k.fileInfo.executablePhysAddr k.executableBase
  bundlePath : Boot.Whole k.fileInfo.bundlePathPhysAddr k.bundlePathBase
  fileInfo : Boot.Whole k.deviceTreeBuffer.paddr k.fileInfoBase

/-- Every address that the kernel is told. -/
structure HandOff.Whole (h : HandOff) : Prop where
  memoryMap : Boot.Whole h.args.memoryMap h.placed.memoryMap
  deviceTree : Boot.Whole h.args.deviceTreeP h.placed.deviceTree
  kaddr : Boot.Whole h.args.kaddr h.textBase
  systemTable : Boot.Whole h.args.efiSystemTable h.placed.systemTable
  bootArgs : Boot.Whole h.bootArgsPhys h.placed.bootArgs
  kernelEntry : Boot.Whole h.kernelEntryPhys h.placed.kernelEntry
  stackTop : Boot.Whole h.stackTopPhys (h.placed.handoffStack + handoffStackSize)
  kexts : ∀ k ∈ h.placed.kexts, k.Whole

/-! ## What leaves the text base alone -/

variable {size : UInt64} {path : String} {start : Start} {q : Prepared} {p : Placed}

variable {trailingZeroBytes : UInt64} {commandLine : List UInt8} {kexts : List KextRecord}

section Keeps

variable {α : Type}

theorem keeps_service {f : σ → α × σ} : Keeps Machine.kernelTextBase (service f) := .call fun _ => rfl

theorem keeps_checked {f : σ → (EfiStatus × α) × σ} : Keeps Machine.kernelTextBase (checked f) :=
  keeps_service.bind fun _ => .ite .throw .pure

theorem keeps_ensureLow32 {address : UInt64} : Keeps (@Machine.kernelTextBase σ) (ensureLow32 address) := .ite .throw .pure

theorem keeps_allocatePages : Keeps Machine.kernelTextBase (allocatePages fw size) :=
  keeps_service.bind fun _ => .ite keeps_checked .pure

theorem keeps_allocateLow32 : Keeps Machine.kernelTextBase (allocateLow32 fw size) :=
  keeps_allocatePages.bind fun _ => keeps_ensureLow32.bind fun _ => .pure

/-- The allocator of boot data moves its cursor and the reserved size only. -/
theorem keeps_allocateKernelBootDataPages : Keeps Machine.kernelTextBase (allocateKernelBootDataPages fw size) := by
  have hget : Keeps (@Machine.kernelTextBase σ) getMachine := .call fun _ => rfl
  refine hget.bind fun m => .ite .throw ?_
  exact keeps_checked.bind fun base => Keeps.bind (.call fun _ => rfl) fun _ => .pure

theorem keeps_freePool {buffer : UInt64} : Keeps Machine.kernelTextBase (freePool fw buffer) := .ite .pure keeps_service

theorem keeps_closeFiles {files : List UInt64} : Keeps Machine.kernelTextBase (closeFiles fw files) :=
  .forM fun _ => keeps_service

theorem keeps_readWholeFile {root file : UInt64} : Keeps Machine.kernelTextBase (readWholeFile fw root file) := by
  refine keeps_service.bind fun info => .ite (keeps_closeFiles.bind fun _ => .ite .throw .pure) ?_
  refine keeps_service.bind fun infoBuffer => .ite (keeps_closeFiles.bind fun _ => .throw) ?_
  refine keeps_service.bind fun size => .ite (keeps_freePool.bind fun _ => keeps_closeFiles.bind fun _ => .throw) ?_
  refine keeps_service.bind fun buffer => .ite (keeps_freePool.bind fun _ => keeps_closeFiles.bind fun _ => .throw) ?_
  refine keeps_service.bind fun data => .ite ?_ (keeps_freePool.bind fun _ => keeps_closeFiles.bind fun _ => .pure)
  exact keeps_freePool.bind fun _ => keeps_freePool.bind fun _ => keeps_closeFiles.bind fun _ => .throw

variable {imageHandle : UInt64}

theorem keeps_loadKernelFile : Keeps Machine.kernelTextBase (loadKernelFile fw imageHandle path) := by
  refine keeps_checked.bind fun loadedImage => keeps_service.bind fun device => keeps_checked.bind fun fileSystem =>
    keeps_checked.bind fun root => keeps_service.bind fun file => ?_
  exact .ite (keeps_closeFiles.bind fun _ => .throw) keeps_readWholeFile

theorem keeps_loadBootCommandLine : Keeps Machine.kernelTextBase (loadBootCommandLine fw imageHandle) := by
  refine keeps_loadKernelFile.attempt.bind fun r => ?_
  cases r with
  | ok file => exact keeps_freePool.bind fun _ => .pure
  | error status => exact .pure

theorem keeps_loadFileToPages : Keeps Machine.kernelTextBase (loadFileToPages fw imageHandle path trailingZeroBytes) := by
  refine keeps_loadKernelFile.bind fun file => keeps_allocateKernelBootDataPages.attempt.bind fun r => ?_
  cases r with
  | ok base => exact keeps_freePool.bind fun _ => keeps_ensureLow32.bind fun _ => .pure
  | error status => exact keeps_freePool.bind fun _ => .throw

theorem keeps_copyToKernelBootData : Keeps Machine.kernelTextBase (copyToKernelBootData fw size) :=
  keeps_allocateKernelBootDataPages.bind fun _ => keeps_ensureLow32.bind fun _ => .pure

theorem keeps_loadExecutable {path : Option String} : Keeps Machine.kernelTextBase (loadExecutable fw imageHandle path) := by
  cases path with
  | none => exact .pure
  | some path => exact keeps_loadFileToPages

theorem keeps_stageBootKexts : Keeps Machine.kernelTextBase (stageBootKexts fw imageHandle commandLine) := by
  refine .mapM fun entry => ?_
  exact keeps_loadFileToPages.bind fun info => keeps_loadExecutable.bind fun executable =>
    keeps_copyToKernelBootData.bind fun bundlePathBase => keeps_copyToKernelBootData.bind fun fileInfoBase => .pure

theorem keeps_captureMemoryMap : Keeps Machine.kernelTextBase (captureMemoryMap fw) := by
  refine keeps_service.bind fun r => .ite (.ite .throw .pure) ?_
  exact keeps_allocatePages.bind fun base => keeps_service.bind fun r => .ite .throw .pure

theorem keeps_makeDeviceTree {fsbFrequencyHz : UInt64} :
    Keeps Machine.kernelTextBase (makeDeviceTree fw fsbFrequencyHz kexts) := by
  refine keeps_allocatePages.bind fun base => ?_
  split
  · exact .throw
  · exact .pure

theorem keeps_placeHandoff : Keeps Machine.kernelTextBase (placeHandoff fw start q) :=
  keeps_makeDeviceTree.bind fun _ => keeps_ensureLow32.bind fun _ => keeps_allocateLow32.bind fun _ =>
    keeps_allocatePages.bind fun _ => keeps_ensureLow32.bind fun _ => .pure

end Keeps

/-! ## What has been checked -/

section Low

variable {imageHandle base : UInt64}

theorem checked_low {x : Loader σ UInt64} (h : Ends (do let base ← x; ensureLow32 base; pure base) m base m') : base.toNat < 2 ^ 32 := by
  obtain ⟨base', m₁, -, h⟩ := ends_bind.mp h
  obtain ⟨_, m₂, hlow, h⟩ := ends_bind.mp h
  obtain ⟨rfl, -⟩ := ends_pure.mp h
  exact (ends_ensureLow32.mp hlow).1

theorem allocateLow32_low (h : Ends (allocateLow32 fw size) m base m') : base.toNat < 2 ^ 32 := checked_low h

theorem copyToKernelBootData_low (h : Ends (copyToKernelBootData fw size) m base m') : base.toNat < 2 ^ 32 := checked_low h

theorem loadFileToPages_low {r : UInt64 × UInt64}
    (h : Ends (loadFileToPages fw imageHandle path trailingZeroBytes) m r m') : r.1.toNat < 2 ^ 32 := by
  obtain ⟨file, m₁, -, h⟩ := ends_bind.mp h
  obtain ⟨a, m₂, -, h⟩ := ends_bind.mp h
  cases a with
  | ok base =>
    obtain ⟨_, m₃, -, h⟩ := ends_bind.mp h
    obtain ⟨_, m₄, hlow, h⟩ := ends_bind.mp h
    obtain ⟨rfl, -⟩ := ends_pure.mp h
    exact (ends_ensureLow32.mp hlow).1
  | error status =>
    obtain ⟨_, m₃, -, h⟩ := ends_bind.mp h
    exact absurd h ends_throw

theorem loadExecutable_low {path : Option String} {r : UInt64 × UInt64}
    (h : Ends (loadExecutable fw imageHandle path) m r m') : r.1.toNat < 2 ^ 32 := by
  cases path with
  | none =>
    obtain ⟨rfl, -⟩ := ends_pure.mp h
    decide
  | some path => exact loadFileToPages_low h

theorem stageBootKext_whole {entry : ManifestEntry} {k : KextRecord} (h : Ends (stageBootKext fw imageHandle entry) m k m') :
    k.Whole := by
  obtain ⟨info, m₁, hinfo, h⟩ := ends_bind.mp h
  obtain ⟨executable, m₂, hexecutable, h⟩ := ends_bind.mp h
  obtain ⟨bundlePath, m₃, hbundlePath, h⟩ := ends_bind.mp h
  obtain ⟨fileInfo, m₄, hfileInfo, h⟩ := ends_bind.mp h
  obtain ⟨rfl, -⟩ := ends_pure.mp h
  exact ⟨whole_iff.mpr (loadFileToPages_low hinfo), whole_iff.mpr (loadExecutable_low hexecutable),
    whole_iff.mpr (copyToKernelBootData_low hbundlePath), whole_iff.mpr (copyToKernelBootData_low hfileInfo)⟩

theorem stageBootKexts_whole (h : Ends (stageBootKexts fw imageHandle commandLine) m kexts m') : ∀ k ∈ kexts, k.Whole := by
  intro k hk
  obtain ⟨entry, -, m₁, m₂, hrun⟩ := ends_mapM h k hk
  exact stageBootKext_whole hrun

end Low

/-! ## The loader -/

/-- What is low, or exact, once the kexts are staged. -/
structure Prepared.Checked (q : Prepared) (m : Machine σ) : Prop where
  text : m.kernelTextBase.toNat < 2 ^ 32
  kernelEntry : q.kernelEntry.toNat < 2 ^ 32
  systemTable : q.systemTable.toNat < 2 ^ 32
  bootArgs : q.bootArgs.toNat < 2 ^ 32
  kexts : ∀ k ∈ q.kexts, k.Whole

theorem prepare_checked {mem : Mem} (h : Ends (prepare fw start mem) m q m') : q.Checked m' := by
  obtain ⟨fsb, m₁, -, h⟩ := ends_bind.mp h
  obtain ⟨gop, m₂, -, h⟩ := ends_bind.mp h
  obtain ⟨file, m₃, -, h⟩ := ends_bind.mp h
  rw [ends_ite] at h
  simp only [ends_throw, and_false, false_or] at h
  obtain ⟨-, h⟩ := h
  obtain ⟨img, m₄, -, h⟩ := ends_bind.mp h
  obtain ⟨kernel, m₅, hkernel, h⟩ := ends_bind.mp h
  obtain ⟨-, -, -, -, -, htext, hentry⟩ := placeKernel_stages hkernel
  obtain ⟨_, m₆, hfree, h⟩ := ends_bind.mp h
  obtain ⟨map, m₇, hmap, h⟩ := ends_bind.mp h
  obtain ⟨systemTable, m₈, hsystemTable, h⟩ := ends_bind.mp h
  obtain ⟨bootArgs, m₉, hbootArgs, h⟩ := ends_bind.mp h
  obtain ⟨commandLine, m₁₀, hcommandLine, h⟩ := ends_bind.mp h
  obtain ⟨kexts, m₁₁, hkexts, h⟩ := ends_bind.mp h
  obtain ⟨rfl, rfl⟩ := ends_pure.mp h
  have hkept : m₁₁.kernelTextBase = m₅.kernelTextBase := by
    rw [keeps_stageBootKexts.of_ends hkexts, keeps_loadBootCommandLine.of_ends hcommandLine,
      keeps_allocateLow32.of_ends hbootArgs, keeps_allocateLow32.of_ends hsystemTable, keeps_captureMemoryMap.of_ends hmap,
      keeps_freePool.of_ends hfree]
  exact ⟨hkept ▸ htext, hentry, allocateLow32_low hsystemTable, allocateLow32_low hbootArgs, stageBootKexts_whole hkexts⟩

/-- What has been placed, besides what was there before. -/
theorem placeHandoff_checked (h : Ends (placeHandoff fw start q) m p m') :
    p.deviceTree.toNat < 2 ^ 32 ∧ (p.handoffStack + handoffStackSize).toNat < 2 ^ 32 ∧ p.systemTable = q.systemTable ∧
      p.bootArgs = q.bootArgs ∧ p.kernelEntry = q.kernelEntry ∧ p.kexts = q.kexts := by
  obtain ⟨deviceTree, m₁, -, h⟩ := ends_bind.mp h
  obtain ⟨_, m₂, hdeviceTree, h⟩ := ends_bind.mp h
  obtain ⟨code, m₃, -, h⟩ := ends_bind.mp h
  obtain ⟨handoffStack, m₄, -, h⟩ := ends_bind.mp h
  obtain ⟨_, m₅, hstack, h⟩ := ends_bind.mp h
  obtain ⟨rfl, -⟩ := ends_pure.mp h
  exact ⟨(ends_ensureLow32.mp hdeviceTree).1, (ends_ensureLow32.mp hstack).1, rfl, rfl, rfl, rfl⟩

/-- However many attempts it took, what the kernel is entered with is made of `p` and of the
    text base. -/
theorem enterKernel_ends {handoff : HandOff} : ∀ {attempts : Nat} {status : EfiStatus} {m : Machine σ},
    Ends (enterKernel fw p attempts status) m handoff m' →
      ∃ args, handoff = ⟨args, p.bootArgs.toUInt32, p.kernelEntry.toUInt32, (p.handoffStack + handoffStackSize).toUInt32, p,
          m.kernelTextBase⟩ ∧ args.memoryMap = p.memoryMap.toUInt32 ∧ args.deviceTreeP = p.deviceTree.toUInt32 ∧
        args.kaddr = m.kernelTextBase.toUInt32 ∧ args.efiSystemTable = p.systemTable.toUInt32 := by
  intro attempts
  induction attempts with
  | zero => exact fun h => absurd h ends_throw
  | succ attempts ih =>
    intro status m h
    obtain ⟨r, m₁, hr, h⟩ := ends_bind.mp h
    obtain ⟨-, rfl⟩ := ends_service.mp hr
    rw [ends_ite] at h
    simp only [ends_throw, and_false, false_or] at h
    obtain ⟨-, h⟩ := h
    obtain ⟨_, _, hget, h⟩ := ends_bind.mp h
    obtain ⟨rfl, rfl⟩ := ends_getMachine.mp hget
    obtain ⟨args, _, hargs, h⟩ := ends_bind.mp h
    obtain ⟨hfill, rfl⟩ := ends_access.mp hargs
    obtain ⟨status', _, hexit, h⟩ := ends_bind.mp h
    obtain ⟨-, rfl⟩ := ends_service.mp hexit
    rcases ends_ite.mp h with ⟨-, h⟩ | ⟨-, h⟩
    · have hlater := ih h
      exact hlater
    · obtain ⟨rfl, -⟩ := ends_pure.mp h
      refine ⟨args, rfl, ?_⟩
      obtain ⟨ranges, -, hsome⟩ := Option.bind_eq_some_iff.mp hfill
      obtain rfl := (Option.some.inj hsome).symm
      exact ⟨rfl, rfl, rfl, rfl⟩

/-- Every firmware for which the kernel is entered: all addresses are whole but for that of the
    memory map, for which it depends on where the firmware put it. -/
theorem handoff_addresses_iff {start : Start} {mem : Mem} {handoff : HandOff} (h : Ends (efiMain fw start mem) m handoff m') :
    handoff.Whole ↔ handoff.placed.memoryMap.toNat < 2 ^ 32 := by
  obtain ⟨q, m₁, hprepare, h⟩ := ends_bind.mp h
  obtain ⟨p, m₂, hplace, h⟩ := ends_bind.mp h
  obtain ⟨_, _, hget, h⟩ := ends_bind.mp h
  obtain ⟨rfl, rfl⟩ := ends_getMachine.mp hget
  obtain ⟨_, _, hfill, h⟩ := ends_bind.mp h
  obtain ⟨-, rfl⟩ := ends_access.mp hfill
  have hq := prepare_checked hprepare
  obtain ⟨hdeviceTree, hstack, hsystemTable, hbootArgs, hkernelEntry, hkexts⟩ := placeHandoff_checked hplace
  have htext := hq.text
  rw [← keeps_placeHandoff.of_ends hplace] at htext
  obtain ⟨args, rfl, hmap, htree, hkaddr, htable⟩ := enterKernel_ends h
  have hmapIff : Whole args.memoryMap p.memoryMap ↔ p.memoryMap.toNat < 2 ^ 32 := by rw [hmap, whole_iff]
  constructor
  · intro hw
    exact hmapIff.mp hw.memoryMap
  · intro hlow
    refine ⟨hmapIff.mpr hlow, ?_, ?_, ?_, whole_iff.mpr (hbootArgs ▸ hq.bootArgs), whole_iff.mpr (hkernelEntry ▸ hq.kernelEntry),
      whole_iff.mpr hstack, hkexts ▸ hq.kexts⟩
    · exact htree.symm ▸ whole_iff.mpr hdeviceTree
    · exact hkaddr.symm ▸ whole_iff.mpr htext
    · exact htable.symm ▸ whole_iff.mpr (hsystemTable ▸ hq.systemTable)

/-! ## Two firmwares -/

/-- Allocations below 4 GiB are all that the device tree, the code and the stack need. -/
theorem placeHandoff_of_allocated (start : Start) (hcount : q.kexts.length ≤ maxBootKexts)
    (hnames : ∀ k ∈ q.kexts, k.driverEntryName.bytes.length ≤ 31) {tree code handoffStack : UInt64} {m₁ m₂ m₃ : Machine σ}
    (htree : Ends (allocatePages fw (UInt64.ofNat deviceTreeMaxSize)) m tree m₁) (htreeLow : tree.toNat < 2 ^ 32)
    (hcode : Ends (allocateLow32 fw start.handoffTemplateSize) m₁ code m₂)
    (hstack : Ends (allocatePages fw handoffStackSize) m₂ handoffStack m₃)
    (hstackLow : (handoffStack + handoffStackSize).toNat < 2 ^ 32) :
    ∃ p, Ends (placeHandoff fw start q) m p m₃ ∧ p.memoryMap = q.map.pointer ∧ p.memoryMapCapacity = q.map.capacity := by
  have hentries : ∀ k ∈ q.kexts.map (fun k => (⟨k.driverEntryName, k.deviceTreeBuffer⟩ : KextEntry)), k.name.bytes.length ≤ 31 := by
    simpa using hnames
  have hbuild := buildSyntheticDeviceTree_eq q.fsbFrequencyHz (by simpa using hcount) hentries
  have hmake : ∃ size, Ends (makeDeviceTree fw q.fsbFrequencyHz q.kexts) m (tree, size) m₁ := by
    refine ⟨UInt32.ofNat (deviceTree q.fsbFrequencyHz (q.kexts.map fun k => ⟨k.driverEntryName, k.deviceTreeBuffer⟩)).encode.length,
      ends_bind.mpr ⟨_, _, htree, ?_⟩⟩
    rw [hbuild]
    exact ends_pure.mpr ⟨rfl, rfl⟩
  obtain ⟨size, hmake⟩ := hmake
  refine ⟨_, ends_bind.mpr ⟨_, _, hmake, ends_bind.mpr ⟨(), _, ends_ensureLow32.mpr ⟨htreeLow, rfl⟩,
    ends_bind.mpr ⟨_, _, hcode, ends_bind.mpr ⟨_, _, hstack, ends_bind.mpr ⟨(), _, ends_ensureLow32.mpr ⟨hstackLow, rfl⟩,
      ends_pure.mpr ⟨rfl, rfl⟩⟩⟩⟩⟩⟩, rfl, rfl⟩

/-- A map of one descriptor is read to its end. -/
theorem fillBootArgs_one (p : Placed) (textBase reservedSize : UInt64) (descriptorVersion : UInt32) (map : Mem) :
    ∃ args, fillBootArgs p textBase reservedSize 48 48 descriptorVersion map = some args := ⟨_, rfl⟩

/-- From the staged kexts on, the sample firmware lets the loader enter the kernel. -/
theorem efiMain_of_prepared {kernel : List UInt8} {lowMap : Bool} {mem : Mem}
    {m m₁ m₂ : Machine UInt64} (hprepare : Ends (prepare (sampleFirmware kernel lowMap) start mem) m q m₁)
    (hsize : q.map.size = 48) (hdescriptor : q.map.descriptorSize = 48)
    (hplace : Ends (placeHandoff (sampleFirmware kernel lowMap) start q) m₁ p m₂) (hcapacity : p.memoryMapCapacity ≠ 0) :
    ∃ handoff, Ends (efiMain (sampleFirmware kernel lowMap) start mem) m handoff m₂ ∧ handoff.placed = p := by
  obtain ⟨first, hfirst⟩ := fillBootArgs_one p m₂.kernelTextBase m₂.kernelReservedSize q.map.descriptorVersion q.map.map
  obtain ⟨args, hargs⟩ := fillBootArgs_one p m₂.kernelTextBase m₂.kernelReservedSize 1 fun _ => 0
  have henter : Ends (enterKernel (sampleFirmware kernel lowMap) p 4 efiNotFound) m₂
      ⟨args, p.bootArgs.toUInt32, p.kernelEntry.toUInt32, (p.handoffStack + handoffStackSize).toUInt32, p, m₂.kernelTextBase⟩ m₂ := by
    refine ends_bind.mpr ⟨_, _, ends_service.mpr ⟨rfl, rfl⟩, ?_⟩
    rw [if_neg (by simp only [sampleFirmware, hcapacity, if_false]; decide)]
    refine ends_bind.mpr ⟨_, _, ends_getMachine.mpr ⟨rfl, rfl⟩, ends_bind.mpr ⟨args, _, ends_access.mpr ⟨hargs, rfl⟩,
      ends_bind.mpr ⟨_, _, ends_service.mpr ⟨rfl, rfl⟩, ?_⟩⟩⟩
    rw [if_neg (by simp only [sampleFirmware]; decide)]
    exact ends_pure.mpr ⟨rfl, rfl⟩
  refine ⟨_, ends_bind.mpr ⟨q, m₁, hprepare, ends_bind.mpr ⟨p, m₂, hplace, ends_bind.mpr ⟨m₂, m₂, ends_getMachine.mpr ⟨rfl, rfl⟩,
    ends_bind.mpr ⟨first, m₂, ends_access.mpr ⟨?_, rfl⟩, henter⟩⟩⟩⟩, rfl⟩
  rw [hsize, hdescriptor]
  exact hfirst

/-- What the boot arguments need of a prepared loader, as one value. -/
def Prepared.summary (q : Prepared) : UInt64 × UInt64 × UInt64 × UInt64 × Bool :=
  (q.map.pointer, q.map.capacity, q.map.size, q.map.descriptorSize,
    decide (q.kexts.length ≤ maxBootKexts ∧ ∀ k ∈ q.kexts, k.driverEntryName.bytes.length ≤ 31))

/-- The sample firmware boots the kernel of two segments, with the memory map where it put it. -/
theorem sample_boots (lowMap : Bool) : ∃ handoff m', Ends (efiMain (sampleFirmware twoSegments lowMap) ⟨1, 0, 64⟩ fun _ => 0xff)
    ⟨0x200000, 0, 0, 0⟩ handoff m' ∧ handoff.placed.memoryMap = if lowMap then 0x200000 else 0x100000000 := by
  have hprepare : ((prepare (sampleFirmware twoSegments lowMap) ⟨1, 0, 64⟩ fun _ => 0xff).returned ⟨0x200000, 0, 0, 0⟩).map
      (fun r => (r.1.summary, r.2)) = some ((if lowMap then 0x200000 else 0x100000000, 0x100000, 48, 48, true),
        ⟨if lowMap then 0x302000 else 0x202000, 0x101000, 0x56000, 0x157000⟩) := by
    cases lowMap <;> decide +kernel
  obtain ⟨q, m₁, hq, hg⟩ := exists_ends_of_returned hprepare
  obtain ⟨hsummary, rfl⟩ := Prod.mk.inj hg
  simp only [Prepared.summary, Prod.mk.injEq, decide_eq_true_eq] at hsummary
  obtain ⟨hpointer, hcapacity, hsize, hdescriptor, hcount, hnames⟩ := hsummary
  have hallocs : ((do
      let tree ← allocatePages (sampleFirmware twoSegments lowMap) (UInt64.ofNat deviceTreeMaxSize)
      let code ← allocateLow32 (sampleFirmware twoSegments lowMap) 64
      let handoffStack ← allocatePages (sampleFirmware twoSegments lowMap) handoffStackSize
      pure (tree, code, handoffStack) : Loader UInt64 (UInt64 × UInt64 × UInt64)).returned ⟨if lowMap then 0x302000 else 0x202000, 0x101000, 0x56000, 0x157000⟩).map
        (fun r => decide (r.1.1.toNat < 2 ^ 32 ∧ (r.1.2.2 + handoffStackSize).toNat < 2 ^ 32)) = some true := by
    cases lowMap <;> decide
  obtain ⟨_, m₂, hends, hlow⟩ := exists_ends_of_returned hallocs
  obtain ⟨tree, m₃, htree, hends⟩ := ends_bind.mp hends
  obtain ⟨code, m₄, hcode, hends⟩ := ends_bind.mp hends
  obtain ⟨handoffStack, m₅, hstack, hends⟩ := ends_bind.mp hends
  obtain ⟨rfl, rfl⟩ := ends_pure.mp hends
  obtain ⟨htreeLow, hstackLow⟩ := of_decide_eq_true hlow
  obtain ⟨p, hplace, hmap, hcap⟩ := placeHandoff_of_allocated ⟨1, 0, 64⟩ hcount hnames htree htreeLow hcode hstack hstackLow
  obtain ⟨handoff, hboot, rfl⟩ := efiMain_of_prepared hq hsize hdescriptor hplace (by rw [hcap, hcapacity]; decide)
  exact ⟨handoff, m₅, hboot, hmap.trans hpointer⟩

/-- With room below 4 GiB for the map, every address is whole. -/
theorem handoff_addresses_low : ∃ handoff m', Ends (efiMain (sampleFirmware twoSegments true) ⟨1, 0, 64⟩ fun _ => 0xff)
    ⟨0x200000, 0, 0, 0⟩ handoff m' ∧ handoff.Whole := by
  obtain ⟨handoff, m', hboot, hmap⟩ := sample_boots true
  exact ⟨handoff, m', hboot, (handoff_addresses_iff hboot).mpr (by rw [hmap]; decide)⟩

/-- Without, the loader enters the kernel all the same: the map is at 0x100000000, and the
    kernel is told that it is at 0. -/
theorem memory_map_narrowed : ∃ handoff m', Ends (efiMain (sampleFirmware twoSegments false) ⟨1, 0, 64⟩ fun _ => 0xff)
    ⟨0x200000, 0, 0, 0⟩ handoff m' ∧ handoff.placed.memoryMap = 0x100000000 ∧ handoff.args.memoryMap = 0 ∧ ¬ handoff.Whole := by
  obtain ⟨handoff, m', hboot, hmap⟩ := sample_boots false
  suffices hzero : handoff.args.memoryMap = 0 by
    refine ⟨handoff, m', hboot, hmap, hzero, fun hwhole => ?_⟩
    have := hwhole.memoryMap
    rw [hmap, hzero] at this
    exact absurd this (by decide)
  obtain ⟨q, m₁, -, h⟩ := ends_bind.mp hboot
  obtain ⟨p, m₂, -, h⟩ := ends_bind.mp h
  obtain ⟨_, m₃, -, h⟩ := ends_bind.mp h
  obtain ⟨_, m₄, -, h⟩ := ends_bind.mp h
  obtain ⟨args, rfl, hargs, -⟩ := enterKernel_ends h
  have hmap' : p.memoryMap = 0x100000000 := hmap
  rw [show (HandOff.args ⟨args, _, _, _, p, _⟩).memoryMap = args.memoryMap from rfl, hargs, hmap']
  decide

end Panthera.Boot
