/-
  Panthera.Boot.Lookups — where the passes over the staged kernel read and write by way of
  `panthera_loaded_vmaddr` and `panthera_loaded_file_offset`
  (`panthera_loader.c`).

  A lookup turns an address of the image and a size into a pointer. It compares the size
  with `highest - vmaddr`, which has wrapped if the address is above the highest, and then
  nearly every size passes.

  Main result: `passes_inside_iff`. What the passes look up lies in the staged span exactly
  if the addresses of the segments, the relocations and the sections of pointers before the
  passes are in the image, and a run that succeeds then changes nothing else.
-/

import Panthera.Boot.SlideOnce

namespace Panthera.Boot

open Lib.Bytes Lib.Ranges Lib.Run Lib.Wire

/-! ## One lookup -/

/-- Where the lookup finds something, the address is in the image. -/
def KernelImage.Finds (img : KernelImage) (base vmaddr size : UInt64) : Prop :=
  loadedVmaddr img base vmaddr size ≠ 0 → vmaddr - img.lowestVmaddr ≤ img.span

instance (img : KernelImage) (base vmaddr size : UInt64) : Decidable (img.Finds base vmaddr size) := inferInstanceAs (Decidable (_ → _))

/-- The relocations that are applied. -/
def RelocsFound (file : List UInt8) (img : KernelImage) (base : UInt64) : Prop :=
  ∀ data ∈ findSegment img "__DATA", ∀ r ∈ relocations file img, (relocSection img r.info).isSome →
    isGdtSlot img (patchVmaddr data.vmaddr r.address) = false → img.Finds base (patchVmaddr data.vmaddr r.address) 8

/-- The section, if it is one of pointers and has any. -/
def PointersFound (img : KernelImage) (base : UInt64) (mem : Mem) (segment sect : UInt64) : Prop :=
  isPointerSection mem segment sect = true → 8 ≤ (read64 mem (sect + 40).toNat).toNat →
    img.Finds base (read64 mem (sect + 32).toNat) (read64 mem (sect + 40).toNat)

/-- The table of the command, if it has symbols. -/
def SymbolsFound (img : KernelImage) (base : UInt64) (mem : Mem) (symtab : UInt64) : Prop :=
  let nsyms := read32 mem (symtab + 12).toNat
  symtab ≠ 0 → nsyms ≠ 0 → ∀ vmaddr ∈ vmaddrOfFile img (read32 mem (symtab + 8).toNat).toUInt64 (nsyms.toUInt64 * 16),
    img.Finds base vmaddr (nsyms.toUInt64 * 16)

/-- The addresses of the kernel before the passes. -/
@[mk_iff]
structure Addressed (file : List UInt8) (img : KernelImage) (base : UInt64) (mem : Mem) : Prop where
  relocs : RelocsFound file img base
  header : ∀ text ∈ findSegment img "__TEXT", img.Finds base text.vmaddr 32
  pointers : ∀ header ∈ headerOf img base, ∀ lc ∈ headerCommands mem header, read32 mem lc.toNat = 0x19 →
    ∀ sect ∈ sectionsOf mem lc, PointersFound img base mem lc sect
  symbols : ∀ header ∈ headerOf img base, SymbolsFound img base mem (lastSymtab mem 0 (headerCommands mem header))

/-- The staged span. -/
def stagedSpan (img : KernelImage) (base : UInt64) : Range := ⟨base.toNat, img.span.toNat⟩

/-- What the passes look up, where it is not null: slots of relocations and of sections of pointers,
    the header and the symbol table. -/
@[mk_iff]
structure LooksInside (file : List UInt8) (img : KernelImage) (base : UInt64) (mem : Mem) : Prop where
  relocs : ∀ s ∈ relocSlots file img base, s ≠ 0 → Range.Inside ⟨s.toNat, 8⟩ (stagedSpan img base)
  header : ∀ header ∈ headerOf img base, header ≠ 0 → Range.Inside ⟨header.toNat, 32⟩ (stagedSpan img base)
  pointers : ∀ header ∈ headerOf img base, ∀ lc ∈ headerCommands mem header, read32 mem lc.toNat = 0x19 → ∀ sect ∈ sectionsOf mem lc,
    sectionOk img base mem lc sect = true → ∀ s ∈ pointerSlots img base mem lc sect, Range.Inside ⟨s.toNat, 8⟩ (stagedSpan img base)
  symbols : ∀ header ∈ headerOf img base, (symbolTable img base mem header).start ≠ 0 →
    (symbolTable img base mem header).Inside (stagedSpan img base)

section

variable {file : List UInt8} {img : KernelImage} {base header lc symtab : UInt64} {m m0 : Mem} {st st' : Sliding} {r : Range}

theorem loadedVmaddr_ne_zero {vmaddr size : UInt64} (hfound : loadedVmaddr img base vmaddr size ≠ 0) :
    loadedVmaddr img base vmaddr size = base + (vmaddr - img.lowestVmaddr) ∧ size ≤ img.highestVmaddr - vmaddr := by
  unfold loadedVmaddr at hfound ⊢
  by_cases hlow : vmaddr < img.lowestVmaddr
  · rw [if_pos hlow] at hfound
    exact absurd rfl hfound
  by_cases hsize : img.highestVmaddr - vmaddr < size
  · rw [if_neg hlow, if_pos hsize] at hfound
    exact absurd rfl hfound
  rw [if_neg hlow, if_neg hsize]
  exact ⟨rfl, UInt64.not_lt.mp hsize⟩

theorem slotsFrom_inside {start size slot : UInt64} {s : Range} (h : Range.Inside ⟨start.toNat, size.toNat⟩ s)
    (hroom : s.start + s.size ≤ 2 ^ 64) (hslot : slot ∈ slotsFrom start size) : Range.Inside ⟨slot.toNat, 8⟩ s := by
  obtain ⟨i, hi, rfl⟩ := List.mem_map.mp hslot
  have hi := List.mem_range.mp hi
  have hlt := size.toNat_lt
  rw [UInt64.toNat_div, show (8 : UInt64).toNat = 8 from rfl] at hi
  have hbound := (Range.inside_iff (by show 0 < size.toNat; omega)).mp h
  simp only at hbound
  have hoff : (8 * UInt64.ofNat i).toNat = 8 * i := by
    rw [UInt64.toNat_mul, UInt64.toNat_ofNat', show (8 : UInt64).toNat = 8 from rfl]
    omega
  rw [toNat_add_lt (by omega), hoff]
  exact Range.inside_of_le (by simp only; omega) (by simp only; omega)

variable (hg : Granted base img.span)
include hg

/-- What a lookup finds lies in the span exactly if the address is in the image. -/
theorem finds_iff {vmaddr size : UInt64} {n : Nat} (hpos : 0 < n) (hn : n ≤ size.toNat) :
    (loadedVmaddr img base vmaddr size ≠ 0 → Range.Inside ⟨(loadedVmaddr img base vmaddr size).toNat, n⟩ (stagedSpan img base)) ↔
      img.Finds base vmaddr size := by
  refine forall_congr' fun hfound => ?_
  obtain ⟨hpointer, hsize⟩ := loadedVmaddr_ne_zero hfound
  have hrest : img.highestVmaddr - vmaddr = img.span - (vmaddr - img.lowestVmaddr) := by
    rw [KernelImage.span]
    grind
  rw [hrest, UInt64.le_iff_toNat_le] at hsize
  unfold Granted at hg
  rw [Range.inside_iff hpos, hpointer, UInt64.toNat_add, UInt64.le_iff_toNat_le]
  have hoff := (vmaddr - img.lowestVmaddr).toNat_lt
  simp only [stagedSpan]
  constructor
  · -- a pointer that has come around is below the base
    omega
  · intro hle
    rw [UInt64.toNat_sub_of_le _ _ (UInt64.le_iff_toNat_le.mpr hle)] at hsize
    omega

theorem relocs_iff :
    (∀ s ∈ relocSlots file img base, s ≠ 0 → Range.Inside ⟨s.toNat, 8⟩ (stagedSpan img base)) ↔ RelocsFound file img base := by
  unfold relocSlots RelocsFound
  cases findSegment img "__DATA" with
  | none => simp
  | some data =>
    simp only [List.forall_mem_filterMap, Option.mem_some_iff, forall_eq']
    refine forall₂_congr fun r _ => ?_
    rw [← finds_iff hg (by decide : 0 < 8) (by decide), relocSlot]
    cases relocSection img r.info <;> cases isGdtSlot img (patchVmaddr data.vmaddr r.address) <;> simp

theorem pointers_iff {sect : UInt64} :
    (sectionOk img base m0 lc sect = true → ∀ s ∈ pointerSlots img base m0 lc sect, Range.Inside ⟨s.toNat, 8⟩ (stagedSpan img base)) ↔
      PointersFound img base m0 lc sect := by
  unfold sectionOk pointerSlots PointersFound
  cases isPointerSection m0 lc sect with
  | false => simp
  | true =>
    simp only [Bool.not_true, Bool.false_or, bne_iff_ne, if_true, true_implies]
    refine ⟨fun h hsize => (finds_iff hg (Nat.succ_pos 7) hsize).mp fun hne => ?_, fun h hne s hs => ?_⟩
    · refine h hne (pointersStart img base m0 sect) (List.mem_map.mpr ⟨0, ?_, by simp⟩)
      rw [List.mem_range, UInt64.toNat_div]
      exact Nat.div_pos hsize (by decide)
    · have hsize : 8 ≤ (read64 m0 (sect + 40).toNat).toNat := by
        obtain ⟨i, hi, -⟩ := List.mem_map.mp hs
        have := List.mem_range.mp hi
        rw [UInt64.toNat_div, show (8 : UInt64).toNat = 8 from rfl] at this
        omega
      exact slotsFrom_inside ((finds_iff hg (Nat.lt_of_lt_of_le (by decide) hsize) (Nat.le_refl _)).mpr (h hsize) hne) hg hs

theorem symbols_iff :
    ((symbolsOf img base m0 symtab).start ≠ 0 → (symbolsOf img base m0 symtab).Inside (stagedSpan img base)) ↔
      SymbolsFound img base m0 symtab := by
  unfold symbolsOf SymbolsFound loadedFileOffset
  dsimp only
  generalize read32 m0 (symtab + 12).toNat = nsyms
  by_cases hsome : symtab = 0 ∨ nsyms = 0
  · rw [if_pos hsome]
    exact ⟨fun _ hne hpos => absurd hsome (not_or.mpr ⟨hne, hpos⟩), fun _ h => absurd rfl h⟩
  obtain ⟨hne, hpos⟩ := not_or.mp hsome
  have hsize : (nsyms.toUInt64 * 16).toNat = 16 * nsyms.toNat := by
    have := nsyms.toNat_lt
    rw [UInt64.toNat_mul, UInt32.toNat_toUInt64, show (16 : UInt64).toNat = 16 from rfl]
    omega
  have hpos' : 0 < nsyms.toNat := Nat.pos_of_ne_zero fun h => hpos (UInt32.toNat_inj.mp h)
  rw [if_neg hsome]
  cases vmaddrOfFile img (read32 m0 (symtab + 8).toNat).toUInt64 (nsyms.toUInt64 * 16) with
  | none => simp
  | some vmaddr =>
    simp only [hne, hpos, Option.mem_some_iff, forall_eq', true_implies, ne_eq, not_false_eq_true]
    rw [← finds_iff hg (n := 16 * nsyms.toNat) (by omega) (by omega), ne_eq, ← UInt64.toNat_inj]
    rfl

/-- What the passes look up is in the span exactly if the addresses are in the image. -/
theorem looks_iff : LooksInside file img base m0 ↔ Addressed file img base m0 := by
  have hheader : (∀ header ∈ headerOf img base, header ≠ 0 → Range.Inside ⟨header.toNat, 32⟩ (stagedSpan img base)) ↔
      ∀ text ∈ findSegment img "__TEXT", img.Finds base text.vmaddr 32 := by
    unfold headerOf
    cases findSegment img "__TEXT" with
    | none => simp
    | some text => simpa using finds_iff hg (by decide : 0 < 32) (by decide)
  simp only [looksInside_iff, addressed_iff, relocs_iff hg, hheader, pointers_iff hg, symbolTable, symbols_iff hg]

/-! ## What a run changes -/

/-- The header that the pass goes on with, and its commands, are in the span. -/
theorem header_inside (haddr : Addressed file img base m0) (hfound : foundHeader img base m = some header)
    (hcmds : read32 m (header + 20).toNat = read32 m0 (header + 20).toNat) : (wholeHeader m0 header).Inside (stagedSpan img base) := by
  obtain ⟨-, -, text, htext, rfl, hne, -, hall⟩ := foundHeader_eq_some hfound
  rw [hcmds] at hall
  have hsize : (32 + (read32 m0 (loadedVmaddr img base text.vmaddr 32 + 20).toNat).toUInt64).toNat =
      32 + (read32 m0 (loadedVmaddr img base text.vmaddr 32 + 20).toNat).toNat := by
    have := (read32 m0 (loadedVmaddr img base text.vmaddr 32 + 20).toNat).toNat_lt
    rw [toNat_add_lt] <;> rw [UInt32.toNat_toUInt64, show (32 : UInt64).toNat = 32 from rfl]
    omega
  have hin := (finds_iff hg (Nat.add_pos_left (by decide) _) hsize.ge).mpr (fun _ => haddr.header text htext hne) hall
  rwa [(loadedVmaddr_ne_zero hall).1, ← (loadedVmaddr_ne_zero hne).1] at hin

omit hg in
theorem commandRun_outside (hroom : (commandBlock m0 header).stop ≤ 2 ^ 64) (hin : InBlock m0 header lc) (hr : r.Disjoint (wholeHeader m0 header))
    (hslots : read32 m0 lc.toNat = 0x19 → ∀ sect ∈ sectionsOf m0 lc, ∀ slot ∈ pointerSlots img base m0 lc sect, r.Disjoint ⟨slot.toNat, 8⟩) :
    SameOn r (commandRun img base m0 st lc).mem st.mem := by
  have hword : ∀ {a k : UInt64} {n : Nat}, Range.Inside ⟨a.toNat, n⟩ (commandBlock m0 header) → k.toNat + 8 ≤ n →
      r.Disjoint ⟨(a + k).toNat, 8⟩ := fun ha hk => hr.mono (fun _ hx => hx) (word_inside hroom ha hk).2
  refine commandRun_same (fun hseg => ?_) fun hthread => hword (hin.thread hthread) (Nat.le_of_ble_eq_true rfl)
  obtain ⟨hlc, hsects⟩ := hin.segment hseg
  exact ⟨hword hlc (Nat.le_of_ble_eq_true rfl), fun sect hsect => ⟨hword (hsects sect hsect) (Nat.le_of_ble_eq_true rfl), hslots hseg sect hsect⟩⟩

/-- A run that succeeds changes only what is looked up, and the header. -/
theorem passes_mem (haddr : Addressed file img base m0)
    (hlayout : ∀ header ∈ headerOf img base, Layout file img base m0 header) (hslide : slideOf img base ≠ 0)
    (h1 : rebaseKernelLocals file img base ⟨m0, []⟩ = .ok st) (h2 : slideKernelMachoMetadata img base st = .ok st')
    (hr : ∀ s : Range, s.Inside (stagedSpan img base) → r.Disjoint s) : SameOn r st'.mem m0 := by
  obtain ⟨⟨hrebase, hne⟩, header, hfound, hsame, hin, stc, hrun, hsymtab, hkeeps⟩ := passes_run h1 h2 hslide hlayout
  have hheader := headerOf_eq hfound
  have hl := hlayout header hheader
  have hlooks := (looks_iff hg).mpr haddr
  have h20 : (header + 20).toNat = header.toNat + 20 := by
    have : header.toNat + 32 + (commandBlock m0 header).size ≤ 2 ^ 64 := hl.room
    exact toNat_add_lt (by show header.toNat + 20 < _; omega)
  have hwhole := header_inside hg haddr hfound (hsame.read32 (by rw [h20]; simp only [wholeHeader, Range.stop]; omega))
  have hfirst : SameOn r st.mem m0 := by
    rw [hrebase]
    exact slides_mem _ fun s hs => hr _ (hlooks.relocs s hs (hne s hs))
  have hcommands : SameOn r stc.mem st.mem := by
    rw [hrun]
    refine List.foldlRecOn (motive := fun g : Sliding => SameOn r g.mem st.mem) _ _ (.refl _ _) fun g hg' lc hlc => ?_
    obtain ⟨hok, hblock⟩ := hin lc hlc
    refine (commandRun_outside hl.room hblock (hr _ hwhole) fun hseg sect hsect slot hslot => hr _ ?_).trans hg'
    rw [commandOk, if_pos hseg, Bool.and_eq_true, Bool.and_eq_true] at hok
    exact hlooks.pointers header hheader lc hlc hseg sect hsect (List.all_eq_true.mp hok.2.2 sect hsect) slot hslot
  refine slideSymtab_inv (Q := fun g => SameOn r g.mem m0) hsymtab hl.room hkeeps hl.symbolsRoom hl.symbols (fun hne g a ha hg' => ?_)
    (hcommands.trans hfirst)
  exact (slide_mem _ _ (hr _ (ha.trans (hlooks.symbols header hheader hne)))).trans hg'

end

/-- Both passes. -/
def slidePasses (file : List UInt8) (img : KernelImage) (base : UInt64) (m : Mem) : Except LoaderStatus Sliding :=
  rebaseKernelLocals file img base ⟨m, []⟩ >>= slideKernelMachoMetadata img base

/-- The file with a relocation in its `__got`, one page above where it was linked. -/
theorem gotRelocation_addressed : Addressed gotRelocation gotRelocationImage 0x101000 gotStaged := by
  have hfacts : relocations gotRelocation gotRelocationImage = [⟨0x1000, 0x06000001⟩] ∧
      ((headerCommands gotStaged 0x201000).all fun lc => if read32 gotStaged lc.toNat = 0x19 then (sectionsOf gotStaged lc).all fun sect =>
        decide (gotRelocationImage.Finds 0x101000 (read64 gotStaged (sect + 32).toNat) (read64 gotStaged (sect + 40).toNat)) else true) = true ∧
      lastSymtab gotStaged 0 (headerCommands gotStaged 0x201000) = 0 := by
    decide +kernel
  obtain ⟨hrelocs, hsections, hsymtab⟩ := hfacts
  refine ⟨fun data hdata r hr _ _ => ?_, fun text htext => ?_, fun header hheader lc hlc hseg sect hsect _ _ => ?_, fun header hheader hne => ?_⟩
  · obtain rfl : (⟨nameField16 "__DATA", 0x201000, 0x1000, 0, 0, 7, 5⟩ : KernelSegment) = data := Option.some.inj hdata
    rw [hrelocs] at hr
    obtain rfl := List.mem_singleton.mp hr
    decide
  · cases htext
    decide
  · obtain rfl : (0x201000 : UInt64) = header := Option.some.inj hheader
    have hall := List.all_eq_true.mp hsections lc hlc
    rw [if_pos hseg] at hall
    exact of_decide_eq_true (List.all_eq_true.mp hall sect hsect)
  · obtain rfl : (0x201000 : UInt64) = header := Option.some.inj hheader
    exact absurd hsymtab hne

/-- `__TEXT` with all of the file, `__DATA` with one section and no contents, and one relocation
    against that section, at `address` from the start of `__DATA`. -/
def oneRelocation (address : UInt32) : List UInt8 :=
  machHeader 4 488 ++ segmentCommand "__TEXT" 0x100000 0x1000 0 528 [] ++
    segmentCommand "__DATA" 0x101000 0x1000 0 0 [sectionHeader "__data" "__DATA" 0x101000 0x1000] ++
    dysymtabCommand 520 1 ++ threadCommand 0x100000 ++ le32 address ++ le32 0x06000001

def oneRelocationImage : KernelImage where
  entryPc := 0x100000
  lowestVmaddr := 0x100000
  highestVmaddr := 0x102000
  localRelocOffset := 520
  localRelocCount := 1
  segments := [⟨nameField16 "__TEXT", 0x100000, 0x1000, 0, 528, 7, 5⟩, ⟨nameField16 "__DATA", 0x101000, 0x1000, 0, 0, 7, 5⟩]
  sections := [⟨0x101000, 0x1000⟩]
  segments_le := by simp [maxKernelSegments]
  sections_le := by simp [maxKernelSections]

/-- Memory with an address of the section where the relocation of `oneRelocation 0x70000000` leads. -/
def farWord : Mem := write64 (fun _ => 0) 0x70201000 0x101000

end Panthera.Boot
