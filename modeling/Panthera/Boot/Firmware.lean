/-
  Panthera.Boot.Firmware — the firmware as the loader sees it, and the loader's allocators
  (`bootx64.c`: `panthera_allocate_pages`,
  `panthera_allocate_pages_at`, `panthera_allocate_kernel_boot_data_pages`,
  `panthera_ensure_low32`).

  Every service gets the state of the firmware and may answer anything and leave any state,
  so that a statement for every `Firmware` is one for every behaviour of it.
-/

import Panthera.Lib.Pages
import Panthera.Lib.Steps
import Panthera.Boot.Stage

namespace Panthera.Boot

open Lib.Bytes Lib.Pages Lib.Steps

/-! ## Services -/

def efiBufferTooSmall : EfiStatus := 0x8000000000000005

def efiOutOfResources : EfiStatus := 0x8000000000000009

/-- `EFI_ERROR` -/
def efiError (status : EfiStatus) : Bool := status &&& 0x8000000000000000 ≠ 0

inductive AllocateType where
  | anyPages
  | maxAddress
  | address
  deriving DecidableEq, Repr

inductive Protocol where
  | loadedImage
  | simpleFileSystem
  deriving DecidableEq, Repr

/-- The mode of the graphics output protocol. -/
structure Gop where
  frameBufferBase : UInt64
  width : UInt32
  height : UInt32
  pixelsPerScanLine : UInt32

/-- What `GetMemoryMap` answers; `map` is what the buffer holds afterwards. -/
structure MemoryMapReply where
  status : EfiStatus
  size : UInt64
  mapKey : UInt64
  descriptorSize : UInt64
  descriptorVersion : UInt32
  map : Mem

structure Firmware (σ : Type) where
  readTsc : σ → UInt64 × σ
  stall : UInt64 → σ → EfiStatus × σ
  locateGop : σ → Option Gop × σ
  handleProtocol : UInt64 → Protocol → σ → (EfiStatus × UInt64) × σ
  deviceHandle : UInt64 → σ → UInt64 × σ
  openVolume : UInt64 → σ → (EfiStatus × UInt64) × σ
  openFile : UInt64 → String → σ → (EfiStatus × UInt64) × σ
  getInfoSize : UInt64 → σ → (EfiStatus × UInt64) × σ
  getFileSize : UInt64 → UInt64 → σ → (EfiStatus × UInt64) × σ
  readFile : UInt64 → UInt64 → σ → (EfiStatus × List UInt8) × σ
  closeFile : UInt64 → σ → Unit × σ
  allocatePool : UInt64 → σ → (EfiStatus × UInt64) × σ
  freePool : UInt64 → σ → Unit × σ
  allocatePages : AllocateType → UInt64 → UInt64 → σ → (EfiStatus × UInt64) × σ
  getMemoryMap : UInt64 → UInt64 → σ → MemoryMapReply × σ
  exitBootServices : UInt64 → σ → EfiStatus × σ

/-- The firmware, and the globals that the loader's allocator of boot data keeps. -/
structure Machine (σ : Type) where
  firmware : σ
  kernelTextBase : UInt64
  kernelReservedSize : UInt64
  kernelBootDataCursor : UInt64
  deriving DecidableEq, Repr

abbrev Loader (σ : Type) := Program EfiStatus (Machine σ)

section

variable {σ α : Type}

def service (f : σ → α × σ) : Loader σ α :=
  Program.call fun m => ((f m.firmware).1, { m with firmware := (f m.firmware).2 })

/-- A service whose status is returned where it is an error. -/
def checked (f : σ → (EfiStatus × α) × σ) : Loader σ α := do
  let r ← service f
  if efiError r.1 then throw r.1 else pure r.2

def getMachine : Loader σ (Machine σ) := Program.call fun m => (m, m)

def modifyMachine (f : Machine σ → Machine σ) : Loader σ Unit := Program.call fun m => ((), f m)

/-! ## Allocators -/

variable (fw : Firmware σ)

def pagesFor (size : UInt64) : UInt64 := (size + 4095) / 4096

/-- `PANTHERA_BOOTSTRAP_ALLOC_MAX_ADDRESS` -/
def bootstrapAllocMaxAddress : UInt64 := 0x3e7fffff

def allocatePages (size : UInt64) : Loader σ UInt64 := do
  let r ← service (fw.allocatePages .maxAddress (pagesFor size) bootstrapAllocMaxAddress)
  if efiError r.1 then checked (fw.allocatePages .anyPages (pagesFor size) 0) else pure r.2

def allocatePagesAt (size address : UInt64) : Loader σ UInt64 :=
  checked (fw.allocatePages .address (pagesFor size) address)

def ensureLow32 (address : UInt64) : Loader σ Unit :=
  if 0xffffffff < address then throw efiOutOfResources else pure ()

def alignPage (value : UInt64) : UInt64 := (value + 4095) &&& ~~~(4095 : UInt64)

/-- The size of an allocation of boot data, in whole pages and at least one. -/
def bootDataSize (size : UInt64) : UInt64 := alignPage (if size = 0 then 1 else size)

def allocateKernelBootDataPages (size : UInt64) : Loader σ UInt64 := do
  let m ← getMachine
  if m.kernelBootDataCursor = 0 then throw efiNotFound
  else do
    let base ← allocatePagesAt fw (bootDataSize size) m.kernelBootDataCursor
    modifyMachine fun m => { m with
      kernelBootDataCursor := base + bootDataSize size
      kernelReservedSize := base + bootDataSize size - m.kernelTextBase }
    pure base

end

/-! ## What the calls leave -/

section

variable {α : Type} {m m' : Machine σ}

theorem ends_service {f : σ → α × σ} {a : α} :
    Ends (service f) m a m' ↔ (f m.firmware).1 = a ∧ m' = { m with firmware := (f m.firmware).2 } := by
  rw [service, ends_call, Prod.mk.injEq]
  exact and_congr_right fun _ => eq_comm

theorem ends_checked {f : σ → (EfiStatus × α) × σ} {a : α} :
    Ends (checked f) m a m' ↔
      ¬ efiError (f m.firmware).1.1 ∧ (f m.firmware).1.2 = a ∧ m' = { m with firmware := (f m.firmware).2 } := by
  rw [checked, ends_bind]
  constructor
  · rintro ⟨r, m₁, hr, h⟩
    obtain ⟨rfl, rfl⟩ := ends_service.mp hr
    rw [ends_ite] at h
    simp only [ends_throw, and_false, false_or, ends_pure] at h
    exact ⟨h.1, h.2.1, h.2.2.symm⟩
  · rintro ⟨he, rfl, rfl⟩
    refine ⟨_, _, ends_service.mpr ⟨rfl, rfl⟩, ?_⟩
    rw [if_neg he, ends_pure]
    exact ⟨rfl, rfl⟩

theorem ends_getMachine {a : Machine σ} : Ends getMachine m a m' ↔ m = a ∧ m = m' := by
  rw [getMachine, ends_call, Prod.mk.injEq]

theorem ends_modifyMachine {f : Machine σ → Machine σ} {u : Unit} : Ends (modifyMachine f) m u m' ↔ f m = m' := by
  rw [modifyMachine, ends_call, Prod.mk.injEq]
  exact and_iff_right (Subsingleton.elim _ _)

theorem ends_ensureLow32 {a : UInt64} {u : Unit} : Ends (ensureLow32 a) m u m' ↔ a.toNat < 2 ^ 32 ∧ m = m' := by
  have hle : ¬ (0xffffffff : UInt64) < a ↔ a.toNat < 2 ^ 32 := by
    rw [UInt64.lt_iff_toNat_lt, show (0xffffffff : UInt64).toNat = 4294967295 from rfl]
    omega
  rw [ensureLow32, ends_ite, hle]
  simp

end

/-! ## Pages -/

variable {σ : Type}

/-- The pages a firmware grants are addresses, and a request for certain pages is granted with
    those or not at all. -/
structure Firmware.Honest (fw : Firmware σ) : Prop where
  granted : ∀ type pages address s, ¬ efiError (fw.allocatePages type pages address s).1.1 →
    (fw.allocatePages type pages address s).1.2.toNat + pages.toNat * 4096 ≤ 2 ^ 64
  exact_pages : ∀ pages address s, ¬ efiError (fw.allocatePages .address pages address s).1.1 →
    (fw.allocatePages .address pages address s).1.2 = address

theorem alignPage_mod (value : UInt64) : (alignPage value).toNat % 4096 = 0 := by
  rw [alignPage, toNat_and_pageMask]
  exact Nat.mul_mod_left _ _

theorem bootDataSize_mod (size : UInt64) : (bootDataSize size).toNat % 4096 = 0 := alignPage_mod _

theorem toNat_alignPage {value : UInt64} (h : value.toNat + 4095 < 2 ^ 64) : (alignPage value).toNat = roundUp value.toNat :=
  toNat_roundUp h

/-- Whole pages take the pages they are. -/
theorem toNat_pagesFor_of_mod {size : UInt64} (h : size.toNat % 4096 = 0) : (pagesFor size).toNat * 4096 = size.toNat := by
  have := size.toNat_lt
  rw [pagesFor, UInt64.toNat_div, UInt64.toNat_add, show (4095 : UInt64).toNat = 4095 from rfl,
    show (4096 : UInt64).toNat = 4096 from rfl]
  omega

/-- An allocation of boot data: it is where the cursor was, and the cursor is behind it. -/
theorem allocateKernelBootDataPages_ends {fw : Firmware σ} (hfw : fw.Honest) {size base : UInt64} {m m' : Machine σ}
    (h : Ends (allocateKernelBootDataPages fw size) m base m') :
    m.kernelBootDataCursor ≠ 0 ∧ base = m.kernelBootDataCursor ∧ base.toNat + (bootDataSize size).toNat ≤ 2 ^ 64 ∧
      m'.kernelTextBase = m.kernelTextBase ∧ m'.kernelBootDataCursor = base + bootDataSize size ∧
      m'.kernelReservedSize = base + bootDataSize size - m.kernelTextBase := by
  obtain ⟨_, _, hget, h⟩ := ends_bind.mp h
  obtain ⟨rfl, rfl⟩ := ends_getMachine.mp hget
  rw [ends_ite] at h
  simp only [ends_throw, and_false, false_or] at h
  obtain ⟨hcursor, h⟩ := h
  obtain ⟨base', m₁, halloc, h⟩ := ends_bind.mp h
  obtain ⟨herr, hbase, rfl⟩ := ends_checked.mp halloc
  obtain ⟨_, _, hmodify, h⟩ := ends_bind.mp h
  obtain rfl := ends_modifyMachine.mp hmodify
  obtain ⟨rfl, rfl⟩ := ends_pure.mp h
  have hgranted := hfw.granted _ _ _ _ herr
  have hexact := hfw.exact_pages _ _ _ herr
  rw [hbase] at hgranted hexact
  rw [toNat_pagesFor_of_mod (bootDataSize_mod size)] at hgranted
  exact ⟨hcursor, hexact, hgranted, rfl, rfl, rfl⟩

end Panthera.Boot
