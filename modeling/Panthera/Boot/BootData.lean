/-
  Panthera.Boot.BootData — the pages behind the kernel, and the range that the kernel is told
  is taken.
-/

import Panthera.Boot.EfiMain

namespace Panthera.Boot

open Lib.Bytes Lib.Pages Lib.Ranges Lib.Steps

variable {σ : Type} {fw : Firmware σ} {m m' : Machine σ}

/-! ## Staging -/

theorem ends_loaderStatus {α : Type} {r : Except LoaderStatus α} {a : α} :
    Ends (loaderStatus r) m a m' ↔ r = .ok a ∧ m = m' := by
  rw [loaderStatus, ends_ofFallible, liftExcept]
  cases r with
  | ok b => simp [Except.mapError]
  | error e => simp [Except.mapError]

variable {base : UInt64} {img : KernelImage} {file : List UInt8}

theorem allocatePages_granted (hfw : fw.Honest) {size : UInt64} (h : Ends (allocatePages fw size) m base m') :
    base.toNat + (pagesFor size).toNat * 4096 ≤ 2 ^ 64 := by
  obtain ⟨r, m₂, hr, h⟩ := ends_bind.mp h
  obtain ⟨rfl, rfl⟩ := ends_service.mp hr
  rcases ends_ite.mp h with ⟨-, h⟩ | ⟨herr, h⟩
  · obtain ⟨herr, rfl, -⟩ := ends_checked.mp h
    exact hfw.granted _ _ _ _ herr
  · obtain ⟨rfl, -⟩ := ends_pure.mp h
    exact hfw.granted _ _ _ _ herr

theorem allocateKernelPages_granted (hfw : fw.Honest)
    (h : Ends (allocateKernelPages fw img) m base m') : base.toNat + (pagesFor img.span).toNat * 4096 ≤ 2 ^ 64 := by
  obtain ⟨r, m₁, hr, h⟩ := ends_bind.mp h
  cases r with
  | ok base' =>
    obtain ⟨rfl, -⟩ := ends_pure.mp h
    obtain ⟨herr, rfl, -⟩ := ends_checked.mp (ends_attempt.mp hr)
    exact hfw.granted _ _ _ _ herr
  | error status => exact allocatePages_granted hfw h

/-- What staging leaves to the allocator of boot data. -/
theorem stageKernelImage_ends (hfw : fw.Honest) {mem : Mem} {staged : StagedKernel}
    (h : Ends (stageKernelImage fw file img mem) m staged m') :
    staged.base.toNat + img.span.toNat ≤ 2 ^ 64 ∧ m'.kernelReservedSize = img.span ∧
      m'.kernelBootDataCursor = alignPage (staged.base + img.span) := by
  obtain ⟨base, m₁, hbase, h⟩ := ends_bind.mp h
  have hgranted := allocateKernelPages_granted hfw hbase
  obtain ⟨_, _, hmodify, h⟩ := ends_bind.mp h
  obtain rfl := ends_modifyMachine.mp hmodify
  obtain ⟨mem₁, _, hstage, h⟩ := ends_bind.mp h
  obtain ⟨hstage, rfl⟩ := ends_ofFallible.mp hstage
  obtain ⟨st₁, _, hrebase, h⟩ := ends_bind.mp h
  obtain ⟨-, rfl⟩ := ends_loaderStatus.mp hrebase
  obtain ⟨st₂, _, hslide, h⟩ := ends_bind.mp h
  obtain ⟨-, rfl⟩ := ends_loaderStatus.mp hslide
  obtain ⟨_, _, hmodify, h⟩ := ends_bind.mp h
  obtain rfl := ends_modifyMachine.mp hmodify
  obtain ⟨mem₂, _, hpatch, h⟩ := ends_bind.mp h
  obtain ⟨-, rfl⟩ := ends_ofFallible.mp hpatch
  obtain ⟨rfl, rfl⟩ := ends_pure.mp h
  -- the zero fill would have faulted if the pages were too few
  have hzero : base.toNat + img.span.toNat ≤ base.toNat + (pagesFor img.span).toNat * 4096 := by
    rw [stageSegments] at hstage
    by_contra hout
    rw [zeroMemory?, if_neg fun hc => hout hc.2] at hstage
    cases hstage
  exact ⟨Nat.le_trans hzero hgranted, rfl, rfl⟩

/-- Once the kernel is staged, the text base is set, and it and the entry are checked. -/
theorem placeKernel_stages {mem : Mem} {r : StagedKernel × UInt64} (h : Ends (placeKernel fw file img mem) m r m') :
    ∃ text m₁, Ends (stageKernelImage fw file img mem) m r.1 m₁ ∧ findSegment img "__TEXT" = some text ∧
      m' = { m₁ with kernelTextBase := segmentPhysicalBase img r.1.base text } ∧ m'.kernelTextBase.toNat < 2 ^ 32 ∧
      r.2.toNat < 2 ^ 32 := by
  obtain ⟨staged, m₁, hstaged, h⟩ := ends_bind.mp h
  split at h
  · exact absurd h ends_throw
  · rename_i text htext
    obtain ⟨_, _, hmodify, h⟩ := ends_bind.mp h
    obtain rfl := ends_modifyMachine.mp hmodify
    rw [ends_ite] at h
    simp only [ends_throw, and_false, false_or] at h
    obtain ⟨-, h⟩ := h
    obtain ⟨_, _, htextLow, h⟩ := ends_bind.mp h
    obtain ⟨hlow, rfl⟩ := ends_ensureLow32.mp htextLow
    obtain ⟨_, _, hentryLow, h⟩ := ends_bind.mp h
    obtain ⟨hentry, rfl⟩ := ends_ensureLow32.mp hentryLow
    obtain ⟨rfl, rfl⟩ := ends_pure.mp h
    exact ⟨text, m₁, hstaged, htext, rfl, hlow, hentry⟩

/-- The kernel once it is placed: its text is at an address of 32 bits. -/
theorem placeKernel_ends (hfw : fw.Honest) {mem : Mem} {r : StagedKernel × UInt64}
    (h : Ends (placeKernel fw file img mem) m r m') :
    ∃ text, findSegment img "__TEXT" = some text ∧ m'.kernelTextBase = segmentPhysicalBase img r.1.base text ∧
      m'.kernelTextBase.toNat < 2 ^ 32 ∧ r.1.base.toNat + img.span.toNat ≤ 2 ^ 64 ∧ m'.kernelReservedSize = img.span ∧
      m'.kernelBootDataCursor = alignPage (r.1.base + img.span) := by
  obtain ⟨text, m₁, hstaged, htext, rfl, hlow, -⟩ := placeKernel_stages h
  obtain ⟨hgranted, hreserved, hcursor⟩ := stageKernelImage_ends hfw hstaged
  exact ⟨text, htext, rfl, hlow, hgranted, hreserved, hcursor⟩

/-! ## Allocations -/

/-- A run of the loader behind `m`, with the boot data allocated in it: sizes and bases, in
    order. Whatever else the loader does in between changes the firmware's state only. -/
inductive BootDataRun (fw : Firmware σ) (m : Machine σ) : List (UInt64 × UInt64) → Machine σ → Prop where
  | start : BootDataRun fw m [] m
  | other {allocs : List (UInt64 × UInt64)} {m' : Machine σ} (s : σ) :
      BootDataRun fw m allocs m' → BootDataRun fw m allocs { m' with firmware := s }
  | allocate {allocs : List (UInt64 × UInt64)} {m' m'' : Machine σ} {size base : UInt64} :
      BootDataRun fw m allocs m' → Ends (allocateKernelBootDataPages fw size) m' base m'' →
      BootDataRun fw m (allocs ++ [(size, base)]) m''

/-- The pages of an allocation. -/
def bootDataRange (a : UInt64 × UInt64) : Range := ⟨a.2.toNat, (bootDataSize a.1).toNat⟩

/-- How much has been allocated. -/
def bootDataTotal (allocs : List (UInt64 × UInt64)) : Nat := (allocs.map fun a => (bootDataSize a.1).toNat).sum

/-- What a run keeps: the allocations are stacked from where the cursor was, and the reserved
    size is the image's until there is one. -/
structure Stacked (m : Machine σ) (allocs : List (UInt64 × UInt64)) (m' : Machine σ) : Prop where
  text : m'.kernelTextBase = m.kernelTextBase
  ranges : allocs.map bootDataRange = stack m.kernelBootDataCursor.toNat (allocs.map fun a => (bootDataSize a.1).toNat)
  inside : m.kernelBootDataCursor.toNat + bootDataTotal allocs ≤ 2 ^ 64
  cursor : m'.kernelBootDataCursor.toNat = (m.kernelBootDataCursor.toNat + bootDataTotal allocs) % 2 ^ 64
  none_yet : allocs = [] → m'.kernelReservedSize = m.kernelReservedSize
  some_yet : allocs ≠ [] → m.kernelBootDataCursor ≠ 0 ∧
    m'.kernelReservedSize = m'.kernelBootDataCursor - m.kernelTextBase

theorem BootDataRun.stacked (hfw : fw.Honest) {allocs : List (UInt64 × UInt64)} (h : BootDataRun fw m allocs m') :
    Stacked m allocs m' := by
  induction h with
  | start =>
    have := m.kernelBootDataCursor.toNat_lt
    have htotal : bootDataTotal [] = 0 := rfl
    exact ⟨rfl, rfl, by omega, by omega, fun _ => rfl, fun h => absurd rfl h⟩
  | other s _ ih => exact ⟨ih.text, ih.ranges, ih.inside, ih.cursor, ih.none_yet, ih.some_yet⟩
  | @allocate allocs m' m'' size base _ halloc ih =>
    obtain ⟨hne, hbase, hroom, htext, hcursor, hreserved⟩ := allocateKernelBootDataPages_ends hfw halloc
    have hlt := m'.kernelBootDataCursor.toNat_lt
    have hpos : 0 < m'.kernelBootDataCursor.toNat := Nat.pos_of_ne_zero fun h0 => hne (UInt64.toNat_inj.mp h0)
    -- the cursor has not come around
    have hexact : base.toNat = m.kernelBootDataCursor.toNat + bootDataTotal allocs := by
      have hinside := ih.inside
      have hcur := ih.cursor
      rw [hbase]
      omega
    have htotal : bootDataTotal (allocs ++ [(size, base)]) = bootDataTotal allocs + (bootDataSize size).toNat := by
      simp [bootDataTotal]
    refine ⟨htext.trans ih.text, ?_, by omega, ?_, fun h => by simp at h, fun _ => ⟨?_, ?_⟩⟩
    · rw [List.map_append, List.map_append, stack_append, ih.ranges]
      simp only [List.map_cons, List.map_nil, stack, bootDataRange, hexact, bootDataTotal]
    · rw [hcursor, UInt64.toNat_add, hexact, htotal, Nat.add_assoc]
    · intro h0
      cases hallocs : allocs with
      | nil =>
        subst hallocs
        rw [h0] at hexact
        simp [bootDataTotal, hbase] at hexact
        omega
      | cons a as => exact (ih.some_yet (by simp [hallocs])).1 h0
    · rw [hreserved, hcursor, ih.text]

/-! ## The range of the kernel -/

/-- The end of the image, in whole pages. -/
def kernelEnd (img : KernelImage) (base : UInt64) : Nat := roundUp (base.toNat + img.span.toNat)

/-- Where the cursor starts. -/
theorem toNat_cursor (hroom : base.toNat + img.span.toNat ≤ 2 ^ 64)
    (hne : alignPage (base + img.span) ≠ 0) : (alignPage (base + img.span)).toNat = kernelEnd img base := by
  have hpos : 0 < (alignPage (base + img.span)).toNat := Nat.pos_of_ne_zero fun h => hne (UInt64.toNat_inj.mp h)
  have hsum : (base + img.span).toNat = (base.toNat + img.span.toNat) % 2 ^ 64 := UInt64.toNat_add _ _
  have hfit : base.toNat + img.span.toNat + 4095 < 2 ^ 64 := by
    by_contra hout
    rw [alignPage, toNat_and_pageMask, UInt64.toNat_add, show (4095 : UInt64).toNat = 4095 from rfl, hsum] at hpos
    omega
  rw [toNat_alignPage (by omega), hsum, Nat.mod_eq_of_lt (by omega), kernelEnd]

/-- With boot data, the range from the text to its end has a size of 32 bits. Without, the
    size of the whole image has, and from the text on it reaches to the end of the image. -/
def ReservedExact (img : KernelImage) (base textBase : UInt64) (allocs : List (UInt64 × UInt64)) : Prop :=
  (allocs = [] → textBase.toNat + img.span.toNat = kernelEnd img base ∧ img.span.toNat < 2 ^ 32) ∧
  (allocs ≠ [] → textBase.toNat ≤ kernelEnd img base + bootDataTotal allocs ∧
    kernelEnd img base + bootDataTotal allocs < textBase.toNat + 2 ^ 32)

instance (img : KernelImage) (base textBase : UInt64) (allocs : List (UInt64 × UInt64)) :
    Decidable (ReservedExact img base textBase allocs) :=
  inferInstanceAs (Decidable (_ ∧ _))

section

variable {img : KernelImage} {base : UInt64} {allocs : List (UInt64 × UInt64)} (hst : Stacked m allocs m')
  (hroom : base.toNat + img.span.toNat ≤ 2 ^ 64) (hcursor : m.kernelBootDataCursor = alignPage (base + img.span))

include hst hroom hcursor

theorem Stacked.contiguous :
    allocs.map bootDataRange = stack (kernelEnd img base) (allocs.map fun a => (bootDataSize a.1).toNat) := by
  by_cases hnone : allocs = []
  · subst hnone
    rfl
  · have hne := (hst.some_yet hnone).1
    rw [hst.ranges, hcursor, toNat_cursor hroom (hcursor ▸ hne)]

theorem Stacked.aligned : ∀ a ∈ allocs, a.2.toNat % 4096 = 0 := by
  intro a ha
  have hsizes : ∀ n ∈ allocs.map (fun a => (bootDataSize a.1).toNat), n % 4096 = 0 := by
    intro n hn
    obtain ⟨b, -, rfl⟩ := List.mem_map.mp hn
    exact bootDataSize_mod b.1
  have hmem : bootDataRange a ∈ stack (kernelEnd img base) (allocs.map fun a => (bootDataSize a.1).toNat) :=
    hst.contiguous hroom hcursor ▸ List.mem_map_of_mem ha
  exact stack_aligned (roundUp_mod _) hsizes _ hmem

/-- The end of the reserved range, in numbers. -/
theorem Stacked.ends_iff (hlow : m.kernelTextBase.toNat < 2 ^ 32) (hreserved : m.kernelReservedSize = img.span) :
    m.kernelTextBase.toNat + m'.kernelReservedSize.toNat % 2 ^ 32 = kernelEnd img base + bootDataTotal allocs ↔
      ReservedExact img base m.kernelTextBase allocs := by
  have hend : img.span.toNat ≤ kernelEnd img base := Nat.le_trans (Nat.le_add_left _ _) (le_roundUp _)
  by_cases hnone : allocs = []
  · rw [ReservedExact, hst.none_yet hnone, hreserved, hnone, show bootDataTotal [] = 0 from rfl]
    simp only [forall_const, ne_eq, not_true_eq_false, false_imp_iff, and_true]
    omega
  · refine Iff.trans ?_ ⟨fun h => ⟨fun h0 => absurd h0 hnone, fun _ => h⟩, fun h => h.2 hnone⟩
    obtain ⟨hne, hsize⟩ := hst.some_yet hnone
    have hinside := hst.inside
    have hstop := hst.cursor
    rw [hcursor, toNat_cursor hroom (hcursor ▸ hne)] at hinside hstop
    rw [hsize, UInt64.toNat_sub, hstop]
    have := m.kernelTextBase.toNat_lt
    omega

end

/-- What the boot data and the range in the boot arguments should be. -/
structure BootDataSound (img : KernelImage) (base textBase : UInt64) (allocs : List (UInt64 × UInt64)) (args : BootArgs) :
    Prop where
  aligned : ∀ a ∈ allocs, a.2.toNat % 4096 = 0
  disjoint : (allocs.map bootDataRange).Pairwise Range.Disjoint
  contiguous : allocs.map bootDataRange = stack (kernelEnd img base) (allocs.map fun a => (bootDataSize a.1).toNat)
  starts : args.kaddr.toNat = textBase.toNat
  ends : args.kaddr.toNat + args.ksize.toNat = kernelEnd img base + bootDataTotal allocs

/-- The allocations are always as they should be; the range in the boot arguments is only if
    its size was measured from the text and fits its field. -/
theorem boot_data_sound_iff (hfw : fw.Honest) {file : List UInt8} {img : KernelImage} {mem : Mem} {m₀ : Machine σ}
    {kernel : StagedKernel × UInt64} (hplace : Ends (placeKernel fw file img mem) m₀ kernel m)
    {allocs : List (UInt64 × UInt64)} (hrun : BootDataRun fw m allocs m') {p : Placed} {mapSize descriptorSize : UInt64}
    {descriptorVersion : UInt32} {map : Mem} {args : BootArgs}
    (hargs : fillBootArgs p m'.kernelTextBase m'.kernelReservedSize mapSize descriptorSize descriptorVersion map = some args) :
    ∃ text, findSegment img "__TEXT" = some text ∧
      (BootDataSound img kernel.1.base (segmentPhysicalBase img kernel.1.base text) allocs args ↔
        ReservedExact img kernel.1.base (segmentPhysicalBase img kernel.1.base text) allocs) := by
  obtain ⟨text, htext, hbase, hlow, hroom, hreserved, hcursor⟩ := placeKernel_ends hfw hplace
  refine ⟨text, htext, ?_⟩
  have hst := hrun.stacked hfw
  obtain ⟨ranges, -, hargs⟩ := Option.bind_eq_some_iff.mp hargs
  obtain rfl := (Option.some.inj hargs).symm
  rw [← hbase]
  have hkaddr : m'.kernelTextBase.toUInt32.toNat = m.kernelTextBase.toNat := by
    rw [hst.text, UInt64.toNat_toUInt32, Nat.mod_eq_of_lt hlow]
  have hksize : m'.kernelReservedSize.toUInt32.toNat = m'.kernelReservedSize.toNat % 2 ^ 32 := UInt64.toNat_toUInt32 _
  have hiff := hst.ends_iff hroom hcursor hlow hreserved
  constructor
  · intro h
    have hends := h.ends
    simp only [hkaddr, hksize] at hends
    exact hiff.mp hends
  · intro h
    have hcontiguous := hst.contiguous hroom hcursor
    refine ⟨hst.aligned hroom hcursor, hcontiguous ▸ stack_disjoint _ _, hcontiguous, hkaddr, ?_⟩
    simp only [hkaddr, hksize]
    exact hiff.mpr h

/-! ## A firmware -/

/-- Where a request is granted, if there is room. -/
def sampleBase : AllocateType → UInt64 → UInt64 → UInt64
  | .address, address, _ => address
  | .anyPages, _, _ => 0x100000000
  | .maxAddress, _, free => free

/-- A firmware that has the kernel and, for every other file but `boot-args.txt`, four bytes.
    Its state is the next free page. If `lowMap` is not set, it has no low memory left for a
    request as large as that for the memory map. -/
def sampleFirmware (kernel : List UInt8) (lowMap : Bool) : Firmware UInt64 where
  readTsc s := (0, s)
  stall _ s := (0, s)
  locateGop s := (none, s)
  handleProtocol _ _ s := ((0, 1), s)
  deviceHandle _ s := (1, s)
  openVolume _ s := ((0, 1), s)
  openFile _ path s :=
    if path = "\\EFI\\PANTHERA\\boot-args.txt" then ((efiNotFound, 0), s) else ((0, if path = "\\mach_kernel" then 2 else 3), s)
  getInfoSize _ s := ((efiBufferTooSmall, 80), s)
  getFileSize file _ s := ((0, if file = 2 then UInt64.ofNat kernel.length else 4), s)
  readFile file _ s := ((0, if file = 2 then kernel else [1, 2, 3, 4]), s)
  closeFile _ s := ((), s)
  allocatePool _ s := ((0, 16), s)
  freePool _ s := ((), s)
  allocatePages type pages address s :=
    if type = .maxAddress ∧ lowMap = false ∧ 256 ≤ pages then ((efiOutOfResources, address), s)
    else if (sampleBase type address s).toNat + pages.toNat * 4096 ≤ 2 ^ 64 then
      ((0, sampleBase type address s), if type = .maxAddress then s + pages * 4096 else s)
    else ((efiOutOfResources, address), s)
  getMemoryMap size _ s := (⟨if size = 0 then efiBufferTooSmall else 0, 48, 7, 48, 1, fun _ => 0⟩, s)
  exitBootServices _ s := (0, s)

theorem sampleFirmware_honest (kernel : List UInt8) (lowMap : Bool) : (sampleFirmware kernel lowMap).Honest := by
  have herr : efiError efiOutOfResources = true := by decide
  constructor
  · intro type pages address s h
    simp only [sampleFirmware] at h ⊢
    split at h
    · exact absurd herr h
    · rename_i hlow
      rw [if_neg hlow]
      split at h
      · rename_i hfit
        rw [if_pos hfit]
        exact hfit
      · exact absurd herr h
  · intro pages address s h
    simp only [sampleFirmware, reduceCtorEq, false_and, if_false] at h ⊢
    split at h
    · rename_i hfit
      rw [if_pos hfit]
      rfl
    · exact absurd herr h

/-- A kernel with a page before its text. -/
def twoSegments : List UInt8 :=
  machHeader 3 328 ++ segmentCommand "__HIB" 0x100000 0x1000 0 0 [] ++
    segmentCommand "__TEXT" 0x101000 0x1000 0 360 [] ++ threadCommand 0x101000

def twoSegmentsImage : KernelImage where
  entryPc := 0x101000
  lowestVmaddr := 0x100000
  highestVmaddr := 0x102000
  localRelocOffset := 0
  localRelocCount := 0
  segments := [⟨nameField16 "__HIB", 0x100000, 0x1000, 0, 0, 7, 5⟩, ⟨nameField16 "__TEXT", 0x101000, 0x1000, 0, 360, 7, 5⟩]
  sections := []
  segments_le := by decide
  sections_le := by decide

/-- The kernel is placed where it was linked, its text a page behind its base. -/
theorem twoSegments_placed : ∃ kernel, Ends (placeKernel (sampleFirmware twoSegments true) twoSegments twoSegmentsImage fun _ => 0xff)
    ⟨0x200000, 0, 0, 0⟩ kernel ⟨0x200000, 0x101000, 0x2000, 0x102000⟩ ∧ kernel.1.base = 0x100000 := by
  have h : ((placeKernel (sampleFirmware twoSegments true) twoSegments twoSegmentsImage fun _ => 0xff).returned
      ⟨0x200000, 0, 0, 0⟩).map (fun r => (r.1.1.base, r.2)) = some (0x100000, ⟨0x200000, 0x101000, 0x2000, 0x102000⟩) := by
    decide +kernel
  obtain ⟨kernel, m, hends, hg⟩ := exists_ends_of_returned h
  obtain ⟨hbase, rfl⟩ := Prod.mk.inj hg
  exact ⟨kernel, hends, hbase⟩

def samplePlaced : Placed where
  commandLine := defaultBootArgs
  fsbFrequencyHz := 100000000
  gop := none
  memoryMap := 0
  memoryMapCapacity := 0
  systemTable := 0x300000
  bootArgs := 0x301000
  kernelEntry := 0x101000
  kexts := []
  deviceTree := 0x302000
  deviceTreeSize := 0
  handoffStack := 0x312000

/-- Two allocations behind the two pages of the kernel. -/
theorem boot_data_sound_two : ∃ kernel m args,
    Ends (placeKernel (sampleFirmware twoSegments true) twoSegments twoSegmentsImage fun _ => 0xff) ⟨0x200000, 0, 0, 0⟩ kernel
      ⟨0x200000, 0x101000, 0x2000, 0x102000⟩ ∧
    BootDataRun (sampleFirmware twoSegments true) ⟨0x200000, 0x101000, 0x2000, 0x102000⟩ [(24, 0x102000), (16, 0x103000)] m ∧
    fillBootArgs samplePlaced m.kernelTextBase m.kernelReservedSize 0 0 0 (fun _ => 0) = some args ∧
    BootDataSound twoSegmentsImage kernel.1.base 0x101000 [(24, 0x102000), (16, 0x103000)] args := by
  obtain ⟨kernel, hplace, hbase⟩ := twoSegments_placed
  have hfirst : ((allocateKernelBootDataPages (sampleFirmware twoSegments true) 24).returned
      ⟨0x200000, 0x101000, 0x2000, 0x102000⟩).map id = some (0x102000, ⟨0x200000, 0x101000, 0x2000, 0x103000⟩) := by decide
  have hsecond : ((allocateKernelBootDataPages (sampleFirmware twoSegments true) 16).returned
      ⟨0x200000, 0x101000, 0x2000, 0x103000⟩).map id = some (0x103000, ⟨0x200000, 0x101000, 0x3000, 0x104000⟩) := by decide
  obtain ⟨_, _, hends, hg⟩ := exists_ends_of_returned hfirst
  obtain ⟨rfl, rfl⟩ := Prod.mk.inj hg
  obtain ⟨_, _, hends', hg⟩ := exists_ends_of_returned hsecond
  obtain ⟨rfl, rfl⟩ := Prod.mk.inj hg
  have hrun := (BootDataRun.start.allocate hends).allocate hends'
  obtain ⟨args, hargs⟩ : ∃ args, fillBootArgs samplePlaced 0x101000 0x3000 0 0 0 (fun _ => 0) = some args :=
    Option.isSome_iff_exists.mp (by decide)
  obtain ⟨text, htext, hiff⟩ := boot_data_sound_iff (sampleFirmware_honest twoSegments true) hplace hrun hargs
  have hfound : findSegment twoSegmentsImage "__TEXT" = some ⟨nameField16 "__TEXT", 0x101000, 0x1000, 0, 360, 7, 5⟩ := by
    decide
  obtain rfl := Option.some.inj (htext.symm.trans hfound)
  have htextBase : segmentPhysicalBase twoSegmentsImage 0x100000 ⟨nameField16 "__TEXT", 0x101000, 0x1000, 0, 360, 7, 5⟩ =
      0x101000 := by decide
  rw [hbase, htextBase] at hiff
  refine ⟨kernel, _, args, hplace, hrun, hargs, ?_⟩
  rw [hbase]
  exact hiff.mpr (by decide)

/-- Without boot data the range is as long as the whole image, but starts at its text: it ends
    a page behind the image. -/
theorem reserved_range_overshoots : ∃ kernel args,
    (parseKernelMacho twoSegments).run = some (.ok twoSegmentsImage) ∧
    Ends (placeKernel (sampleFirmware twoSegments true) twoSegments twoSegmentsImage fun _ => 0xff) ⟨0x200000, 0, 0, 0⟩ kernel
      ⟨0x200000, 0x101000, 0x2000, 0x102000⟩ ∧
    BootDataRun (sampleFirmware twoSegments true) ⟨0x200000, 0x101000, 0x2000, 0x102000⟩ []
      ⟨0x200000, 0x101000, 0x2000, 0x102000⟩ ∧
    fillBootArgs samplePlaced 0x101000 0x2000 0 0 0 (fun _ => 0) = some args ∧
    args.kaddr.toNat + args.ksize.toNat = 0x103000 ∧ kernelEnd twoSegmentsImage kernel.1.base = 0x102000 ∧
    ¬ BootDataSound twoSegmentsImage kernel.1.base 0x101000 [] args := by
  obtain ⟨kernel, hplace, hbase⟩ := twoSegments_placed
  have hfill : (fillBootArgs samplePlaced 0x101000 0x2000 0 0 0 fun _ => 0).map (fun args => args.kaddr.toNat + args.ksize.toNat) =
      some 0x103000 := by decide
  obtain ⟨args, hargs, hend⟩ := Option.map_eq_some_iff.mp hfill
  have himage : kernelEnd twoSegmentsImage kernel.1.base = 0x102000 := by
    rw [hbase]
    decide
  refine ⟨kernel, args, by decide +kernel, hplace, .start, hargs, hend, himage, fun h => ?_⟩
  have := h.ends
  rw [hend, himage] at this
  exact absurd this (by decide)

end Panthera.Boot
