/-
  Panthera.Boot.RuntimePages — the firmware's runtime pages, as the kernel is told of them
  (`panthera_fill_boot_args`: `efiRuntimeServicesPageStart`, `efiRuntimeServicesPageCount`).

  The memory map may have any number of runtime descriptors, in any order and with gaps between
  them. The loader hands over one range: the first page of the first descriptor that has any, and the
  number of pages of all of them, counted in 32 bits.

  When all runtime pages are in that range is `runtime_pages_covered_iff`; `a_gap_is_not_covered`
  is a map with one free page between two descriptors.
-/

import Panthera.Boot.BootData

namespace Panthera.Boot

open Lib.Bytes Lib.Ranges Lib.Wire

/-! ## Runtime descriptors -/

/-- `EFI_MEMORY_RUNTIME` -/
def MemoryRange.isRuntime (r : MemoryRange) : Bool := r.attributes &&& 0x8000000000000000 ≠ 0

/-- The numbers of its pages. -/
def MemoryRange.pages (r : MemoryRange) : Range := ⟨r.physicalStart.toNat / 4096, r.numberOfPages.toNat⟩

@[simp] theorem MemoryRange.pages_start (r : MemoryRange) : r.pages.start = r.physicalStart.toNat / 4096 := rfl

@[simp] theorem MemoryRange.pages_size (r : MemoryRange) : r.pages.size = r.numberOfPages.toNat := rfl

def MemoryRange.Below16TiB (r : MemoryRange) : Prop := r.physicalStart.toNat + r.numberOfPages.toNat * 4096 ≤ 2 ^ 44

/-- The pages of the runtime descriptors, in the order of the map. -/
def runtimeRanges (ranges : List MemoryRange) : List Range := (ranges.filter MemoryRange.isRuntime).map MemoryRange.pages

def hasPages (r : Range) : Bool := 0 < r.size

theorem hasPages_iff {r : Range} : hasPages r = true ↔ 0 < r.size := decide_eq_true_iff

def pageCount (rs : List Range) : Nat := (rs.map (·.size)).sum

/-- One range of as many pages as there are has all of them, from the first on. -/
def FromFirst (rs : List Range) : Prop :=
  pageCount rs < 2 ^ 32 ∧ ∀ first, rs.find? hasPages = some first → ∀ r ∈ rs, r.Inside ⟨first.start, pageCount rs⟩

/-! ## The loop -/

/-- One turn. -/
def runtimeStep (st : UInt64 × UInt32) (r : MemoryRange) : UInt64 × UInt32 :=
  if r.isRuntime then (if st.2 = 0 then r.physicalStart >>> 12 else st.1, st.2 + r.numberOfPages.toUInt32) else st

variable (ranges : List MemoryRange)

theorem runtimePages_eq : runtimePages ranges = ranges.foldl runtimeStep (0, 0) := by
  unfold runtimePages
  congr
  funext st r
  simp [runtimeStep, MemoryRange.isRuntime]

theorem runtimeRanges_cons (r : MemoryRange) (ranges : List MemoryRange) :
    runtimeRanges (r :: ranges) = if r.isRuntime then r.pages :: runtimeRanges ranges else runtimeRanges ranges := by
  rw [runtimeRanges, List.filter_cons]
  split <;> rfl

theorem pageCount_cons (r : Range) (rs : List Range) : pageCount (r :: rs) = r.size + pageCount rs := List.sum_cons

/-- The pages are counted in 32 bits. -/
theorem foldl_count (st : UInt64 × UInt32) :
    (ranges.foldl runtimeStep st).2.toNat = (st.2.toNat + pageCount (runtimeRanges ranges)) % 2 ^ 32 := by
  induction ranges generalizing st with
  | nil => exact (Nat.mod_eq_of_lt st.2.toNat_lt).symm
  | cons r ranges ih =>
    rw [List.foldl_cons, ih, runtimeRanges_cons, runtimeStep]
    split
    · rw [pageCount_cons, UInt32.toNat_add, UInt64.toNat_toUInt32, MemoryRange.pages_size]
      omega
    · rfl

/-- Once there are pages, the start stays as long as the count does not wrap. -/
theorem foldl_start (st : UInt64 × UInt32) (hpos : 0 < st.2.toNat)
    (hcount : st.2.toNat + pageCount (runtimeRanges ranges) < 2 ^ 32) : (ranges.foldl runtimeStep st).1 = st.1 := by
  induction ranges generalizing st with
  | nil => rfl
  | cons r ranges ih =>
    rw [runtimeRanges_cons] at hcount
    rw [List.foldl_cons, runtimeStep]
    split
    · rename_i hruntime
      rw [if_pos hruntime, pageCount_cons, MemoryRange.pages_size] at hcount
      have hne : st.2 ≠ 0 := fun h => by rw [h] at hpos; exact absurd hpos (Nat.lt_irrefl 0)
      have hsum : (st.2 + r.numberOfPages.toUInt32).toNat = st.2.toNat + r.numberOfPages.toNat := by
        rw [UInt32.toNat_add, UInt64.toNat_toUInt32]
        omega
      rw [if_neg hne]
      exact ih _ (by rw [hsum]; omega) (by rw [hsum]; omega)
    · rename_i hruntime
      rw [if_neg hruntime] at hcount
      exact ih st hpos hcount

/-- The start is that of the first descriptor that has pages. -/
theorem foldl_first (start : UInt64) {first : Range} (hcount : pageCount (runtimeRanges ranges) < 2 ^ 32)
    (hfirst : (runtimeRanges ranges).find? hasPages = some first) :
    (ranges.foldl runtimeStep (start, 0)).1.toNat = first.start := by
  induction ranges generalizing start with
  | nil => cases hfirst
  | cons r ranges ih =>
    rw [runtimeRanges_cons] at hcount hfirst
    rw [List.foldl_cons, runtimeStep]
    split
    · rename_i hruntime
      rw [if_pos hruntime] at hcount hfirst
      rw [pageCount_cons, MemoryRange.pages_size] at hcount
      have hsum : ((0 : UInt32) + r.numberOfPages.toUInt32).toNat = r.numberOfPages.toNat := by
        rw [UInt32.zero_add, UInt64.toNat_toUInt32]
        omega
      rw [if_pos rfl]
      by_cases hpages : 0 < r.numberOfPages.toNat
      · rw [List.find?_cons_of_pos (hasPages_iff.mpr hpages)] at hfirst
        rw [foldl_start _ _ (by rw [hsum]; exact hpages) (by rw [hsum]; omega), ← Option.some.inj hfirst]
        calc (r.physicalStart >>> 12).toNat = r.physicalStart.toNat >>> 12 := UInt64.toNat_shiftRight r.physicalStart 12
          _ = r.pages.start := Nat.shiftRight_eq_div_pow _ _
      · -- a descriptor without pages leaves the count at zero
        rw [List.find?_cons_of_neg fun h => hpages (hasPages_iff.mp h)] at hfirst
        have hzero : (0 : UInt32) + r.numberOfPages.toUInt32 = 0 := UInt32.toNat_inj.mp (by rw [hsum]; exact Nat.eq_zero_of_not_pos hpages)
        rw [hzero]
        exact ih _ (by omega) hfirst
    · rename_i hruntime
      rw [if_neg hruntime] at hcount hfirst
      exact ih start hcount hfirst

/-! ## What the kernel is told -/

section

variable {p : Placed} {textBase reservedSize mapSize descriptorSize : UInt64} {descriptorVersion : UInt32} {map : Mem} {args : BootArgs}
  {ranges : List MemoryRange}

/-- All runtime pages are in the range that the boot arguments give. -/
def Covered (args : BootArgs) (ranges : List MemoryRange) : Prop :=
  ∀ r ∈ runtimeRanges ranges, r.Inside ⟨args.efiRuntimeServicesPageStart.toNat, args.efiRuntimeServicesPageCount.toNat⟩

theorem covered_iff_of_lt (hstart : args.efiRuntimeServicesPageStart = (runtimePages ranges).1.toUInt32)
    (hcount : args.efiRuntimeServicesPageCount = (runtimePages ranges).2) (hbelow : ∀ r ∈ ranges, r.Below16TiB)
    (hlt : pageCount (runtimeRanges ranges) < 2 ^ 32) : Covered args ranges ↔ FromFirst (runtimeRanges ranges) := by
  have hcount' : args.efiRuntimeServicesPageCount.toNat = pageCount (runtimeRanges ranges) := by
    rw [hcount, runtimePages_eq, foldl_count]
    simpa using Nat.mod_eq_of_lt hlt
  cases hfirst : (runtimeRanges ranges).find? hasPages with
  | none =>
    -- no pages at all
    have hempty : ∀ r ∈ runtimeRanges ranges, ∀ s : Range, r.Inside s := by
      intro r hr s x hx
      have hsize : ¬ 0 < r.size := fun h => List.find?_eq_none.mp hfirst r hr (hasPages_iff.mpr h)
      rw [Range.mem_iff] at hx
      omega
    exact iff_of_true (fun r hr => hempty r hr _) ⟨hlt, fun first h => by rw [hfirst] at h; cases h⟩
  | some first =>
    have hstart' : args.efiRuntimeServicesPageStart.toNat = first.start := by
      obtain ⟨r, hr, rfl⟩ := List.mem_map.mp (List.mem_of_find?_eq_some hfirst)
      have hpages : 0 < r.pages.size := hasPages_iff.mp (List.find?_some hfirst)
      have hend := hbelow r (List.mem_of_mem_filter hr)
      rw [MemoryRange.Below16TiB] at hend
      rw [MemoryRange.pages_size] at hpages
      rw [hstart, UInt64.toNat_toUInt32, runtimePages_eq, foldl_first ranges 0 hlt hfirst, MemoryRange.pages_start]
      omega
    rw [Covered, FromFirst, hstart', hcount', and_iff_right hlt]
    constructor
    · intro h first' hfirst' r hr
      rw [hfirst] at hfirst'
      exact Option.some.inj hfirst' ▸ h r hr
    · intro h
      exact h first hfirst

/-- Descriptors that do not overlap have as many pages as are below 16 TiB at most; if they have all of these, the count wraps. -/
theorem pageCount_lt_of_covered (hcount : args.efiRuntimeServicesPageCount = (runtimePages ranges).2) (hbelow : ∀ r ∈ ranges, r.Below16TiB)
    (hdisjoint : (runtimeRanges ranges).Pairwise Range.Disjoint) (h : Covered args ranges) : pageCount (runtimeRanges ranges) < 2 ^ 32 := by
  have hle : pageCount (runtimeRanges ranges) ≤ 2 ^ 32 := by
    apply sum_size_le hdisjoint
    intro r hr
    obtain ⟨d, hd, rfl⟩ := List.mem_map.mp hr
    have hend := hbelow d (List.mem_of_mem_filter hd)
    rw [MemoryRange.Below16TiB] at hend
    intro x hx
    rw [Range.mem_iff, MemoryRange.pages_start, MemoryRange.pages_size] at hx
    rw [Range.mem_iff]
    dsimp only
    omega
  refine Nat.lt_of_le_of_ne hle fun hall => ?_
  have hzero : args.efiRuntimeServicesPageCount.toNat = 0 := by
    rw [hcount, runtimePages_eq, foldl_count, hall]
    rfl
  obtain ⟨r, hr, hsize⟩ : ∃ r ∈ runtimeRanges ranges, 0 < r.size := by
    by_contra hnone
    simp only [not_exists, not_and, Nat.pos_iff_ne_zero, not_not] at hnone
    have hsum : pageCount (runtimeRanges ranges) = 0 := List.sum_eq_zero fun n hn => by
      obtain ⟨r, hr, rfl⟩ := List.mem_map.mp hn
      exact hnone r hr
    rw [hsum] at hall
    cases hall
  have hx := Range.mem_iff.mp (h r hr r.start (Range.mem_iff.mpr (by omega)))
  rw [hzero] at hx
  dsimp only at hx
  omega

/-- Every page of every runtime descriptor is in the range that the kernel is told of if the descriptors are fewer than 2^32 pages, all
    within that many pages from the start of the first that has any; and only then, for descriptors that do not overlap. -/
theorem runtime_pages_covered_iff (hranges : memoryRanges map mapSize.toNat descriptorSize.toNat (mapSize.toNat + 1) 0 = some ranges)
    (hargs : fillBootArgs p textBase reservedSize mapSize descriptorSize descriptorVersion map = some args)
    (hbelow : ∀ r ∈ ranges, r.Below16TiB) :
    (FromFirst (runtimeRanges ranges) → Covered args ranges) ∧
      ((runtimeRanges ranges).Pairwise Range.Disjoint → Covered args ranges → FromFirst (runtimeRanges ranges)) := by
  rw [fillBootArgs, hranges] at hargs
  obtain rfl := Option.some.inj hargs
  constructor
  · intro h
    exact (covered_iff_of_lt rfl rfl hbelow h.1).mpr h
  · intro hdisjoint h
    exact (covered_iff_of_lt rfl rfl hbelow (pageCount_lt_of_covered rfl hbelow hdisjoint h)).mp h

end

/-! ## Two maps -/

/-- A runtime descriptor of 40 bytes. -/
def runtimeDescriptor (start pages : UInt64) : List UInt8 := le64 6 ++ le64 start ++ le64 0 ++ le64 pages ++ le64 0x8000000000000000

/-- Two descriptors of one page. -/
def twoDescriptors (start start' : UInt64) : Mem := memOf (runtimeDescriptor start 1 ++ runtimeDescriptor start' 1)

def twoRanges (start start' : UInt64) : List MemoryRange := [⟨start, 1, 0x8000000000000000⟩, ⟨start', 1, 0x8000000000000000⟩]

/-- The second descriptor where the first one ends. -/
theorem runtime_pages_covered_iff_adjacent :
    ∃ args, fillBootArgs samplePlaced 0 0 80 40 1 (twoDescriptors 0x1000 0x2000) = some args ∧
      memoryRanges (twoDescriptors 0x1000 0x2000) 80 40 81 0 = some (twoRanges 0x1000 0x2000) ∧ Covered args (twoRanges 0x1000 0x2000) := by
  have hranges : memoryRanges (twoDescriptors 0x1000 0x2000) 80 40 81 0 = some (twoRanges 0x1000 0x2000) := rfl
  have hpages : runtimeRanges (twoRanges 0x1000 0x2000) = [⟨1, 1⟩, ⟨2, 1⟩] := by decide
  obtain ⟨args, hargs⟩ : ∃ args, fillBootArgs samplePlaced 0 0 80 40 1 (twoDescriptors 0x1000 0x2000) = some args := ⟨_, rfl⟩
  have hbelow : ∀ r ∈ twoRanges 0x1000 0x2000, r.Below16TiB := by
    intro r hr
    rcases List.mem_cons.mp hr with rfl | hr
    · exact Nat.le_of_ble_eq_true rfl
    · exact List.mem_singleton.mp hr ▸ Nat.le_of_ble_eq_true rfl
  refine ⟨args, hargs, hranges, (runtime_pages_covered_iff hranges hargs hbelow).1 ?_⟩
  rw [hpages]
  refine ⟨by decide, fun first hfirst r hr => ?_⟩
  obtain rfl := Option.some.inj (hfirst.symm.trans (by decide : [⟨1, 1⟩, ⟨2, 1⟩].find? hasPages = some (⟨1, 1⟩ : Range)))
  rcases List.mem_cons.mp hr with rfl | hr
  · exact Range.inside_of_le (by decide) (by decide)
  · obtain rfl := List.mem_singleton.mp hr
    exact Range.inside_of_le (by decide) (by decide)

/-- One page between the two: the kernel is told of pages 1 and 2, and the second descriptor is page 3. -/
theorem a_gap_is_not_covered :
    ∃ args, fillBootArgs samplePlaced 0 0 80 40 1 (twoDescriptors 0x1000 0x3000) = some args ∧
      memoryRanges (twoDescriptors 0x1000 0x3000) 80 40 81 0 = some (twoRanges 0x1000 0x3000) ∧
      args.efiRuntimeServicesPageStart = 1 ∧ args.efiRuntimeServicesPageCount = 2 ∧ ¬ Covered args (twoRanges 0x1000 0x3000) := by
  have hpages : runtimeRanges (twoRanges 0x1000 0x3000) = [⟨1, 1⟩, ⟨3, 1⟩] := by decide
  refine ⟨_, rfl, rfl, rfl, rfl, fun h => ?_⟩
  have hmem := Range.mem_iff.mp (h ⟨3, 1⟩ (by rw [hpages]; decide) 3 (Range.mem_iff.mpr (by decide)))
  exact absurd hmem.2 (by decide)

end Panthera.Boot
