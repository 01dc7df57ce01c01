/-
  Panthera.Boot.HeaderWalk — which parts of the staged Mach-O header the second pass comes
  to (`panthera_loader.c`: `panthera_slide_kernel_macho_metadata`).

  The pass walks the load commands behind the header that it finds at the start of
  `__TEXT`. It goes by the number and the sizes of the commands alone: `sizeofcmds` is
  compared with the image once, and no command with `sizeofcmds`. As it goes, it slides
  words of the commands themselves and of the sections of pointers, so that what it reads
  next may be what it has written.

  `headerTouched` is what the pass accesses of the header as it goes; `headerObjects` is
  what it would come to in the memory it starts with, if it changed nothing. Where no
  section of pointers lies over the header, both stay inside the `sizeofcmds` bytes or
  neither does (`header_walk_inside_iff`): a word that the pass slides is behind it by then.
-/

import Panthera.Lib.Run
import Panthera.Boot.Slide

namespace Panthera.Boot

open Lib.Bytes Lib.Ranges Lib.Run

/-! ## The header -/

/-- The header that the pass goes on with, if it does. -/
def foundHeader (img : KernelImage) (base : UInt64) (mem : Mem) : Option UInt64 :=
  if base = 0 ∨ slideOf img base = 0 then none
  else (findSegment img "__TEXT").bind fun text =>
    let header := loadedVmaddr img base text.vmaddr 32
    if header = 0 ∨ read32 mem header.toNat ≠ 0xfeedfacf ∨
        loadedVmaddr img base text.vmaddr (32 + (read32 mem (header + 20).toNat).toUInt64) = 0 then none
    else some header

/-- The `sizeofcmds` bytes behind it. -/
def commandBlock (mem : Mem) (header : UInt64) : Range := ⟨header.toNat + 32, (read32 mem (header + 20).toNat).toNat⟩

def ncmds (mem : Mem) (header : UInt64) : UInt32 := read32 mem (header + 16).toNat

variable {img : KernelImage} {base header : UInt64} {st : Sliding} {m : Mem} {n : Nat} {r : Range} {index : UInt32}

/-- What the pass has checked of the header that it goes on with. -/
theorem foundHeader_eq_some {mem : Mem} (h : foundHeader img base mem = some header) :
    base ≠ 0 ∧ slideOf img base ≠ 0 ∧ ∃ text, findSegment img "__TEXT" = some text ∧ header = loadedVmaddr img base text.vmaddr 32 ∧
      header ≠ 0 ∧ read32 mem header.toNat = 0xfeedfacf ∧
      loadedVmaddr img base text.vmaddr (32 + (read32 mem (header + 20).toNat).toUInt64) ≠ 0 := by
  unfold foundHeader at h
  split at h
  · exact nomatch h
  next hne =>
    obtain ⟨text, htext, h⟩ := Option.bind_eq_some_iff.mp h
    dsimp only at h
    split at h
    · exact nomatch h
    next hok =>
      obtain ⟨h0, hmagic, htrunc⟩ := not_or.mp hok |>.imp_right not_or.mp
      cases h
      exact ⟨fun hb => hne (.inl hb), fun hs => hne (.inr hs), text, htext, rfl, h0, not_not.mp hmagic, htrunc⟩

theorem slideKernelMachoMetadata_of_found (h : foundHeader img base st.mem = some header) : slideKernelMachoMetadata img base st = (do
      let r ← slideCommands img base header (2 ^ 32) 0 (header + 32) 0 st
      slideSymtab img base r.2 r.1) := by
  obtain ⟨hbase, hslide, text, htext, rfl, h0, hmagic, htrunc⟩ := foundHeader_eq_some h
  rw [slideKernelMachoMetadata, if_neg hbase, if_neg hslide, htext]
  dsimp only
  rw [if_neg h0, if_neg (not_not.mpr hmagic), if_neg htrunc]

/-- Without a header the pass has nothing to do, or fails. -/
theorem eq_of_not_found {st' : Sliding} (h : foundHeader img base st.mem = none)
    (hok : slideKernelMachoMetadata img base st = .ok st') : slideOf img base = 0 ∧ st' = st := by
  unfold slideKernelMachoMetadata at hok
  split at hok
  · exact nomatch hok
  next hbase =>
    split at hok
    next hslide =>
      cases hok
      exact ⟨hslide, rfl⟩
    next hslide =>
      split at hok
      · exact nomatch hok
      next text htext =>
        rw [foundHeader, if_neg (not_or.mpr ⟨hbase, hslide⟩), htext, Option.bind_some] at h
        dsimp only at h hok
        split at h
        next hbad =>
          rcases hbad with h0 | hmagic | htrunc
          · rw [if_pos h0] at hok
            exact nomatch hok
          · rw [if_pos hmagic] at hok
            split at hok
            · exact nomatch hok
            · exact nomatch hok
          · rw [if_pos htrunc] at hok
            split at hok
            · exact nomatch hok
            · split at hok
              · exact nomatch hok
              · exact nomatch hok
        next => exact nomatch h

/-! ## The objects that it accesses -/

/-- The section headers of a segment, as the loop comes to them. -/
def sectionsTouched (img : KernelImage) (base segment : UInt64) : Nat → UInt32 → Sliding → List Range
  | 0, _, _ => []
  | fuel + 1, index, st =>
    if index < read32 st.mem (segment + 64).toNat then
      let sect := segment + 72 + 80 * index.toUInt64
      ⟨sect.toNat, 80⟩ :: match slideSection img base segment sect st with
        | .ok st => sectionsTouched img base segment fuel (index + 1) st
        | .error _ => []
    else []

/-- A load command, with the thread state or the section headers in it. -/
def commandTouched (img : KernelImage) (base lc : UInt64) (st : Sliding) : List Range :=
  let cmd := read32 st.mem lc.toNat
  let cmdsize := read32 st.mem (lc + 4).toNat
  ⟨lc.toNat, 8⟩ ::
    if cmdsize < 8 then []
    else if cmd = 0x19 then
      ⟨lc.toNat, 72⟩ ::
        if cmdsize.toNat < 72 + (read32 st.mem (lc + 64).toNat).toNat * 80 then []
        else sectionsTouched img base lc (2 ^ 32) 0 (st.slide (slideOf img base) (lc + 24))
    else if cmd = 0x5 then if cmdsize.toNat < 184 then [] else [⟨lc.toNat, 184⟩]
    else []

/-- A turn of the loop over the commands. -/
def slideTurn (img : KernelImage) (base lc symtab : UInt64) (st : Sliding) : Except LoaderStatus (Sliding × UInt64) :=
  if read32 st.mem (lc + 4).toNat < 8 then .error .truncated else slideCommand img base lc symtab st

/-- All of them; behind the last command the symbol table's is read once more. -/
def commandsTouched (img : KernelImage) (base header : UInt64) : Nat → UInt32 → UInt64 → UInt64 → Sliding → List Range
  | 0, _, _, _, _ => []
  | fuel + 1, index, lc, symtab, st =>
    if index < ncmds st.mem header then
      commandTouched img base lc st ++ match slideTurn img base lc symtab st with
        | .ok r => commandsTouched img base header fuel (index + 1) (lc + (read32 r.1.mem (lc + 4).toNat).toUInt64) r.2 r.1
        | .error _ => []
    else if symtab = 0 then [] else [⟨symtab.toNat, 24⟩]

/-- The load commands, section headers and thread states that the pass accesses. -/
def headerTouched (img : KernelImage) (base : UInt64) (st : Sliding) : List Range :=
  match foundHeader img base st.mem with
  | some header => commandsTouched img base header (2 ^ 32) 0 (header + 32) 0 st
  | none => []

/-! ## The commands as they stand before -/

section Static

variable (img : KernelImage) (base : UInt64) (mem : Mem)

/-- The section headers of the segment command. -/
def sectionsOf (segment : UInt64) : List UInt64 :=
  (List.range (read32 mem (segment + 64).toNat).toNat).map fun i => segment + 72 + 80 * UInt64.ofNat i

/-- The pointers of a section of pointers: where it starts, or null if it is not in the image. -/
def pointersStart (sect : UInt64) : UInt64 :=
  loadedVmaddr img base (read64 mem (sect + 32).toNat) (read64 mem (sect + 40).toNat)

def pointerSlots (segment sect : UInt64) : List UInt64 :=
  if isPointerSection mem segment sect then slotsFrom (pointersStart img base mem sect) (read64 mem (sect + 40).toNat) else []

def sectionOk (segment sect : UInt64) : Bool := !isPointerSection mem segment sect || pointersStart img base mem sect != 0

/-- The pass goes on behind the command. -/
def commandOk (lc : UInt64) : Bool :=
  let cmd := read32 mem lc.toNat
  let cmdsize := read32 mem (lc + 4).toNat
  decide (8 ≤ cmdsize) &&
    if cmd = 0x19 then
      decide (72 + (read32 mem (lc + 64).toNat).toNat * 80 ≤ cmdsize.toNat) && (sectionsOf mem lc).all (sectionOk img base mem lc)
    else if cmd = 0x5 then decide (184 ≤ cmdsize.toNat)
    else true

def commandObjects (lc : UInt64) : List Range :=
  let cmd := read32 mem lc.toNat
  let cmdsize := read32 mem (lc + 4).toNat
  ⟨lc.toNat, 8⟩ ::
    if cmdsize < 8 then []
    else if cmd = 0x19 then
      ⟨lc.toNat, 72⟩ ::
        if cmdsize.toNat < 72 + (read32 mem (lc + 64).toNat).toNat * 80 then []
        else (reached (sectionOk img base mem lc) (sectionsOf mem lc)).map fun sect => ⟨sect.toNat, 80⟩
    else if cmd = 0x5 then if cmdsize.toNat < 184 then [] else [⟨lc.toNat, 184⟩]
    else []

def commandsFrom : Nat → UInt64 → List UInt64
  | 0, _ => []
  | n + 1, lc => lc :: commandsFrom n (lc + (read32 mem (lc + 4).toNat).toUInt64)

/-- The last `LC_SYMTAB`, or `symtab`. -/
def lastSymtab (symtab : UInt64) (commands : List UInt64) : UInt64 :=
  commands.foldl (fun symtab lc => if read32 mem lc.toNat = 0x2 then lc else symtab) symtab

def objectsFrom (commands : List UInt64) (symtab : UInt64) : List Range :=
  (reached (commandOk img base mem) commands).flatMap (commandObjects img base mem) ++
    if commands.all (commandOk img base mem) ∧ lastSymtab mem symtab commands ≠ 0 then
      [⟨(lastSymtab mem symtab commands).toNat, 24⟩]
    else []

def headerCommands (header : UInt64) : List UInt64 := commandsFrom mem (ncmds mem header).toNat (header + 32)

/-- What the pass comes to, if nothing it reads is what it has written. -/
def headerObjects (header : UInt64) : List Range := objectsFrom img base mem (headerCommands mem header) 0

end Static

/-! ## One section -/

theorem bytesAt_congr {m' : Mem} {a : Nat} (h : SameOn ⟨a, n⟩ m m') : bytesAt m a n = bytesAt m' a n :=
  List.map_congr_left fun i hi => h _ (Range.mem_iff.mpr ⟨Nat.le_add_right a i, Nat.add_lt_add_left (List.mem_range.mp hi) a⟩)

/-- `(a + k).toNat` where nothing wraps. -/
theorem toNat_add_lt {a k : UInt64} (h : a.toNat + k.toNat < 2 ^ 64) : (a + k).toNat = a.toNat + k.toNat := by
  rw [UInt64.toNat_add, Nat.mod_eq_of_lt h]

section Section

variable {img : KernelImage} {base segment sect : UInt64} {m0 : Mem} {st : Sliding}

theorem slide_mem (delta : UInt64) (slot : UInt64) (h : r.Disjoint ⟨slot.toNat, 8⟩) :
    SameOn r (st.slide delta slot).mem st.mem := SameOn.write64 _ h

/-- The pointers change nothing but their slots. -/
theorem slidePointers_mem (delta : UInt64) : ∀ {slots : List UInt64} {st : Sliding},
    (∀ slot ∈ slots, r.Disjoint ⟨slot.toNat, 8⟩) → SameOn r (slots.foldl (slidePointer img delta) st).mem st.mem := by
  intro slots
  induction slots with
  | nil => exact fun _ => .refl _ _
  | cons slot slots ih =>
    intro st h
    refine SameOn.trans (ih fun s hs => h s (List.mem_cons_of_mem _ hs)) ?_
    unfold slidePointer
    dsimp only
    split
    · exact slide_mem delta slot (h slot List.mem_cons_self)
    · exact .refl _ _

theorem isPointerSection_congr {m' : Mem} (hsegment : segment.toNat + 24 < 2 ^ 64)
    (hname : SameOn ⟨segment.toNat + 8, 16⟩ m m') (hsect : SameOn ⟨sect.toNat, 16⟩ m m') :
    isPointerSection m segment sect = isPointerSection m' segment sect := by
  have h8 : (segment + 8).toNat = segment.toNat + 8 := toNat_add_lt (by show segment.toNat + 8 < _; omega)
  rw [isPointerSection, isPointerSection, h8, bytesAt_congr hname, bytesAt_congr hsect]

/-- The word of the section header that is slid. -/
def slideAddr (img : KernelImage) (base : UInt64) (mem : Mem) (sect : UInt64) (st : Sliding) : Sliding :=
  if read64 mem (sect + 32).toNat ≠ 0 then st.slide (slideOf img base) (sect + 32) else st

theorem slideAddr_mem (h : r.Disjoint ⟨(sect + 32).toNat, 8⟩) : SameOn r (slideAddr img base m0 sect st).mem st.mem := by
  unfold slideAddr
  split
  · exact slide_mem _ _ h
  · exact .refl _ _

/-- What becomes of a section that goes by what was in its header before. -/
def sectionRun (img : KernelImage) (base : UInt64) (mem : Mem) (segment : UInt64) (st : Sliding) (sect : UInt64) : Sliding :=
  (pointerSlots img base mem segment sect).foldl (slidePointer img (slideOf img base)) (slideAddr img base mem sect st)

/-- A section goes by what was in its header before, if that is still there. -/
theorem slideSection_eq (img : KernelImage) (base segment : UInt64) (hend : sect.toNat + 80 ≤ 2 ^ 64) (hbehind : segment.toNat + 24 ≤ sect.toNat)
    (hsect : SameOn ⟨sect.toNat, 80⟩ st.mem m0) (hname : SameOn ⟨segment.toNat + 8, 16⟩ st.mem m0) :
    slideSection img base segment sect st =
      if sectionOk img base m0 segment sect then .ok (sectionRun img base m0 segment st sect) else .error .badReloc := by
  have h32 : (sect + 32).toNat = sect.toNat + 32 := toNat_add_lt (by show sect.toNat + 32 < _; omega)
  have h40 : (sect + 40).toNat = sect.toNat + 40 := toNat_add_lt (by show sect.toNat + 40 < _; omega)
  have haddr : read64 st.mem (sect + 32).toNat = read64 m0 (sect + 32).toNat := hsect.read64 (by rw [h32]; simp [Range.stop])
  -- The slide of the address leaves the names and the size alone.
  have hleaves : ∀ {a n}, a + n ≤ sect.toNat + 32 ∨ sect.toNat + 40 ≤ a → SameOn ⟨a, n⟩ st.mem m0 →
      SameOn ⟨a, n⟩ (slideAddr img base m0 sect st).mem m0 := by
    intro a n hapart hsame
    refine (slideAddr_mem (Range.disjoint_iff.mpr ?_)).trans hsame
    rw [h32]
    simp only
    omega
  have hinside : ∀ {a n}, sect.toNat ≤ a → a + n ≤ sect.toNat + 80 → SameOn ⟨a, n⟩ st.mem m0 := fun ha hn =>
    hsect.mono (Range.inside_of_le ha hn)
  have hpointer : isPointerSection (slideAddr img base m0 sect st).mem segment sect = isPointerSection m0 segment sect :=
    isPointerSection_congr (by omega) (hleaves (.inl (by omega)) hname)
      (hleaves (.inl (by omega)) (hinside (Nat.le_refl _) (by omega)))
  have hsize : read64 (slideAddr img base m0 sect st).mem (sect + 40).toNat = read64 m0 (sect + 40).toNat := by
    rw [h40]
    exact (hleaves (n := 8) (.inr (Nat.le_refl _)) (hinside (by omega) (by omega))).read64 (by simp [Range.stop])
  have hslides : slideSection img base segment sect st =
      let st := slideAddr img base m0 sect st
      if isPointerSection st.mem segment sect then
        let slot := loadedVmaddr img base (read64 m0 (sect + 32).toNat) (read64 st.mem (sect + 40).toNat)
        if slot = 0 then .error .badReloc
        else .ok ((slotsFrom slot (read64 st.mem (sect + 40).toNat)).foldl (slidePointer img (slideOf img base)) st)
      else .ok st := by
    rw [slideSection, haddr]
    rfl
  rw [hslides]
  dsimp only
  rw [hpointer, hsize, sectionOk, sectionRun, pointerSlots, pointersStart]
  by_cases hp : isPointerSection m0 segment sect = true
  · simp [hp]
  · simp [hp]

end Section

/-! ## The sections of a command -/

section Sections

variable {img : KernelImage} {base header lc : UInt64} {m0 : Mem}

/-- The header and all of the commands. -/
def wholeHeader (mem : Mem) (header : UInt64) : Range := ⟨header.toNat, 32 + (commandBlock mem header).size⟩

/-- Positions in the block do not wrap. -/
theorem toNat_add_inside (hsize : r.size < 2 ^ 32) {a d : UInt64} (hd : d.toNat < 2 ^ 40)
    (ha : a.toNat ∈ r) (h : (a + d).toNat ∈ r) : (a + d).toNat = a.toNat + d.toNat := by
  rw [Range.mem_iff] at ha h
  have := UInt64.toNat_add a d
  have := a.toNat_lt
  omega

theorem commandBlock_size (mem : Mem) (header : UInt64) : (commandBlock mem header).size < 2 ^ 32 := UInt32.toNat_lt _

/-- While the sections of the command at `lc` are gone through, the header is as it was, and so
    are the command but for its address and the block from `lo` on. -/
structure Intact (m0 : Mem) (header lc : UInt64) (lo : Nat) (m : Mem) : Prop where
  head : SameOn ⟨header.toNat, 32⟩ m m0
  front : SameOn ⟨lc.toNat, 24⟩ m m0
  rest : SameOn ⟨lc.toNat + 32, 40⟩ m m0
  tail : SameOn ⟨lo, (commandBlock m0 header).stop - lo⟩ m m0

/-- The pointers of the section lie apart from the header. -/
def SlotsApart (img : KernelImage) (base : UInt64) (m0 : Mem) (header segment sect : UInt64) : Prop :=
  ∀ slot ∈ pointerSlots img base m0 segment sect, (wholeHeader m0 header).Disjoint ⟨slot.toNat, 8⟩

theorem Intact.section {sect : UInt64} (h : Intact m0 header lc sect.toNat st.mem)
    (hlc : Range.Inside ⟨lc.toNat, 72⟩ (commandBlock m0 header)) (hbehind : lc.toNat + 72 ≤ sect.toNat)
    (hsect : Range.Inside ⟨sect.toNat, 80⟩ (commandBlock m0 header)) (hroom : (commandBlock m0 header).stop ≤ 2 ^ 64)
    (hapart : SlotsApart img base m0 header lc sect) :
    Intact m0 header lc (sect.toNat + 80) (sectionRun img base m0 lc st sect).mem := by
  have hlc' := (Range.inside_iff (Nat.succ_pos _)).mp hlc
  have hsect' := (Range.inside_iff (Nat.succ_pos _)).mp hsect
  have hstart : (commandBlock m0 header).start = header.toNat + 32 := rfl
  simp only [Range.stop] at hroom
  simp only at hlc' hsect'
  have h32 : (sect + 32).toNat = sect.toNat + 32 := toNat_add_lt (by show sect.toNat + 32 < _; omega)
  -- A piece of the header that the address of this section is not in.
  have hkeeps : ∀ {r : Range}, r.Inside (wholeHeader m0 header) → r.Disjoint ⟨sect.toNat + 32, 8⟩ → SameOn r st.mem m0 →
      SameOn r (sectionRun img base m0 lc st sect).mem m0 := by
    intro r hin hdis hsame
    refine (slidePointers_mem _ fun slot hslot => ?_).trans ((slideAddr_mem (h32 ▸ hdis)).trans hsame)
    exact (hapart slot hslot).mono hin fun x hx => hx
  have hwhole : ∀ {a n}, header.toNat ≤ a → a + n ≤ header.toNat + 32 + (commandBlock m0 header).size →
      Range.Inside ⟨a, n⟩ (wholeHeader m0 header) := fun ha hn =>
    Range.inside_of_le ha (by simp only [wholeHeader]; omega)
  constructor
  · exact hkeeps (hwhole (Nat.le_refl _) (by omega)) (Range.disjoint_iff.mpr (by simp only; omega)) h.head
  · exact hkeeps (hwhole (by omega) (by omega)) (Range.disjoint_iff.mpr (by simp only; omega)) h.front
  · exact hkeeps (hwhole (by omega) (by omega)) (Range.disjoint_iff.mpr (by simp only; omega)) h.rest
  · refine hkeeps (hwhole (by omega) (by simp only [Range.stop]; omega)) (Range.disjoint_iff.mpr (by simp only; omega)) ?_
    exact h.tail.mono (Range.inside_of_le (by simp only; omega) (by simp only [Range.stop]; omega))

/-- The section headers from `index` on. -/
def sectionsFrom (lc : UInt64) (index k : Nat) : List UInt64 := (List.range' index k).map fun i => lc + 72 + 80 * UInt64.ofNat i

theorem toNat_section (index : Nat) (h : index < 2 ^ 32) : (72 + 80 * UInt64.ofNat index : UInt64).toNat = 72 + 80 * index := by
  simp only [UInt64.toNat_add, UInt64.toNat_mul, UInt64.toNat_ofNat', UInt64.reduceToNat]
  omega

/-- How a walk through sections or commands ends, where all that it comes to is in the block. -/
inductive Ends {σ : Type} (good : Bool) (P : σ → Prop) : Except LoaderStatus σ → Prop
  | ok {st : σ} (hgood : good = true) (h : P st) : Ends good P (.ok st)
  | error {e : LoaderStatus} (hbad : good = false) : Ends good P (.error e)

/-- A counter goes on while something is left. -/
theorem lt_iff_left {last : UInt32} (h : index.toNat + n = last.toNat) : index < last ↔ 0 < n := by
  rw [UInt32.lt_iff_toNat_lt]
  omega

theorem index_succ {last : UInt32} (h : index.toNat + (n + 1) = last.toNat) : (index + 1).toNat + n = last.toNat := by
  have hlt := last.toNat_lt
  rw [UInt32.toNat_add, UInt32.toNat_one]
  omega

/-- The loop over the section headers comes to those that it would if it changed nothing, up to
    the first that is not in the block. -/
theorem sections_walk (hlc : Range.Inside ⟨lc.toNat, 72⟩ (commandBlock m0 header)) (hroom : (commandBlock m0 header).stop ≤ 2 ^ 64)
    (hapart : ∀ sect ∈ sectionsOf m0 lc, Range.Inside ⟨sect.toNat, 80⟩ (commandBlock m0 header) →
      SlotsApart img base m0 header lc sect) :
    ∀ (k fuel : Nat) (index : UInt32) (st : Sliding), index.toNat + k = (read32 m0 (lc + 64).toNat).toNat → k < fuel →
      Intact m0 header lc (lc.toNat + 72 + 80 * index.toNat) st.mem →
      ((∀ r ∈ sectionsTouched img base lc fuel index st, r.Inside (commandBlock m0 header)) ↔
        ∀ sect ∈ reached (sectionOk img base m0 lc) (sectionsFrom lc index.toNat k),
          Range.Inside ⟨sect.toNat, 80⟩ (commandBlock m0 header)) ∧
      ((∀ sect ∈ reached (sectionOk img base m0 lc) (sectionsFrom lc index.toNat k),
          Range.Inside ⟨sect.toNat, 80⟩ (commandBlock m0 header)) →
        Ends ((sectionsFrom lc index.toNat k).all (sectionOk img base m0 lc))
          (fun st' => st' = (sectionsFrom lc index.toNat k).foldl (sectionRun img base m0 lc) st ∧
            Intact m0 header lc (lc.toNat + 72 + 80 * (read32 m0 (lc + 64).toNat).toNat) st'.mem)
          (slideSections img base lc fuel index st)) := by
  have hlc' := (Range.inside_iff (Nat.succ_pos _)).mp hlc
  have hroom' := hroom
  simp only [Range.stop] at hlc' hroom'
  have h64 : (lc + 64).toNat = lc.toNat + 64 := toNat_add_lt (by show lc.toNat + 64 < _; omega)
  have hleft : ∀ {lo n : Nat} {index : UInt32} {m : Mem}, Intact m0 header lc lo m →
      index.toNat + n = (read32 m0 (lc + 64).toNat).toNat → (index < read32 m (lc + 64).toNat ↔ 0 < n) := by
    intro lo n index m hm hn
    rw [hm.rest.read32 (by rw [h64]; simp [Range.stop])]
    exact lt_iff_left hn
  intro k
  induction k with
  | zero =>
    intro fuel index st hk hfuel hst
    obtain ⟨fuel, rfl⟩ := Nat.exists_eq_add_of_lt hfuel
    have hdone : ¬ index < read32 st.mem (lc + 64).toNat := fun h => Nat.lt_irrefl 0 ((hleft hst hk).mp h)
    rw [Nat.zero_add, sectionsTouched, slideSections, if_neg hdone, if_neg hdone]
    refine ⟨iff_of_true (fun r hr => (nomatch hr)) fun s hs => (nomatch hs), fun _ => .ok rfl ⟨rfl, ?_⟩⟩
    rwa [← hk, Nat.add_zero]
  | succ k ih =>
    intro fuel index st hk hfuel hst
    obtain ⟨fuel, rfl⟩ := Nat.exists_eq_add_of_lt hfuel
    have hlt := (read32 m0 (lc + 64).toNat).toNat_lt
    have hmore : index < read32 st.mem (lc + 64).toNat := (hleft hst hk).mpr (Nat.succ_pos k)
    have hnext : (index + 1).toNat = index.toNat + 1 := by
      have := index_succ hk
      omega
    have hindex : index.toUInt64 = UInt64.ofNat index.toNat := UInt64.toNat_inj.mp (by simp)
    generalize hsect : lc + 72 + 80 * UInt64.ofNat index.toNat = sect
    have hlist : sectionsFrom lc index.toNat (k + 1) = sect :: sectionsFrom lc (index.toNat + 1) k := by
      rw [sectionsFrom, List.range'_succ, List.map_cons, hsect]
      rfl
    rw [sectionsTouched, slideSections, if_pos hmore, if_pos hmore, hindex, hsect, hlist, reached]
    dsimp only
    by_cases hin : Range.Inside ⟨sect.toNat, 80⟩ (commandBlock m0 header)
    · have hpos : sect.toNat = lc.toNat + 72 + 80 * index.toNat := by
        have hd := toNat_section index.toNat (by omega)
        rw [UInt64.add_assoc] at hsect
        have hadd := toNat_add_inside (commandBlock_size m0 header) (a := lc) (d := 72 + 80 * UInt64.ofNat index.toNat) (by omega)
          hlc.start (by rw [hsect]; exact hin.start)
        rw [hsect, hd] at hadd
        omega
      have hin' := (Range.inside_iff (Nat.succ_pos _)).mp hin
      simp only at hin'
      rw [← hpos] at hst
      have hmem : sect ∈ sectionsOf m0 lc :=
        List.mem_map.mpr ⟨index.toNat, List.mem_range.mpr (by omega), hsect⟩
      have hone := slideSection_eq img base lc (by omega) (by omega)
        (hst.tail.mono (Range.inside_of_le (Nat.le_refl _) (by simp only [Range.stop]; omega)))
        (hst.front.mono (Range.inside_of_le (Nat.le_add_right _ _) (by simp only; omega)))
      rw [hone]
      by_cases hok : sectionOk img base m0 lc sect = true
      · have hst' := hst.section hlc (by omega) hin hroom (hapart sect hmem hin)
        rw [if_pos hok, if_pos hok, List.all_cons, hok, Bool.true_and]
        obtain ⟨hiff, hends⟩ := ih (k + 1 + fuel) (index + 1) _ (by omega) (by omega)
          (by rwa [hnext, show lc.toNat + 72 + 80 * (index.toNat + 1) = sect.toNat + 80 by omega])
        rw [hnext] at hiff hends
        refine ⟨?_, fun h => hends fun s hs => h s (List.mem_cons_of_mem _ hs)⟩
        rw [List.forall_mem_cons, List.forall_mem_cons]
        exact and_congr_right fun _ => hiff
      · rw [if_neg hok, if_neg hok]
        refine ⟨iff_of_true ?_ ?_, fun _ => .error (by simp [hok])⟩
        · exact fun r hr => List.mem_singleton.mp hr ▸ hin
        · exact fun s hs => List.mem_singleton.mp hs ▸ hin
    · exact ⟨iff_of_false (fun h => hin (h _ List.mem_cons_self)) fun h => hin (h _ List.mem_cons_self),
        fun h => absurd (h _ List.mem_cons_self) hin⟩

end Sections

/-! ## One command -/

section Command

variable {img : KernelImage} {base header lc : UInt64} {m0 : Mem} {st : Sliding}

/-- The header is as it was, and so is the block from the command at `lc` on. -/
structure Ahead (m0 : Mem) (header lc : UInt64) (m : Mem) : Prop where
  head : SameOn ⟨header.toNat, 32⟩ m m0
  tail : (commandBlock m0 header).start ≤ lc.toNat → SameOn ⟨lc.toNat, (commandBlock m0 header).stop - lc.toNat⟩ m m0

/-- The pointers of the sections whose headers the block has lie apart from the header. -/
def CommandApart (img : KernelImage) (base : UInt64) (m0 : Mem) (header lc : UInt64) : Prop :=
  read32 m0 lc.toNat = 0x19 → ∀ sect ∈ sectionsOf m0 lc, Range.Inside ⟨sect.toNat, 80⟩ (commandBlock m0 header) → SlotsApart img base m0 header lc sect

/-- The command at `lc` has been changed up to its end at most. -/
theorem Ahead.next {lo : Nat} {cmdsize : UInt32} (hlc : lc.toNat ∈ commandBlock m0 header)
    (hhead : SameOn ⟨header.toNat, 32⟩ m m0) (htail : SameOn ⟨lo, (commandBlock m0 header).stop - lo⟩ m m0)
    (hlo : lo ≤ lc.toNat + cmdsize.toNat) : Ahead m0 header (lc + cmdsize.toUInt64) m := by
  refine ⟨hhead, fun hstart x hx => ?_⟩
  have hsize : cmdsize.toUInt64.toNat = cmdsize.toNat := by simp
  have hlt := cmdsize.toNat_lt
  rw [Range.mem_iff] at hx
  simp only at hx
  -- An address behind the command that has wrapped is not in the block.
  have hnext : (lc + cmdsize.toUInt64).toNat = lc.toNat + cmdsize.toNat := by
    rw [← hsize]
    refine toNat_add_inside (commandBlock_size m0 header) (by omega) hlc (Range.mem_iff.mpr ⟨hstart, ?_⟩)
    simp only [Range.stop] at hx
    omega
  exact htail x (show lo ≤ x ∧ x < lo + ((commandBlock m0 header).stop - lo) by omega)

theorem sectionsOf_eq (m0 : Mem) (lc : UInt64) : sectionsOf m0 lc = sectionsFrom lc 0 (read32 m0 (lc + 64).toNat).toNat := by
  rw [sectionsOf, sectionsFrom, List.range_eq_range']

/-- What becomes of a command that goes by what was there before. -/
def commandRun (img : KernelImage) (base : UInt64) (mem : Mem) (st : Sliding) (lc : UInt64) : Sliding :=
  if read32 mem lc.toNat = 0x19 then
    (sectionsOf mem lc).foldl (sectionRun img base mem lc) (st.slide (slideOf img base) (lc + 24))
  else if read32 mem lc.toNat = 0x5 then st.slide (slideOf img base) (lc + 144)
  else st

/-- What is asked of a turn at a command whose header is in the block. -/
def Turn (img : KernelImage) (base : UInt64) (m0 : Mem) (header lc symtab : UInt64) (st : Sliding) : Prop :=
  ((∀ r ∈ commandTouched img base lc st, r.Inside (commandBlock m0 header)) ↔
    ∀ r ∈ commandObjects img base m0 lc, r.Inside (commandBlock m0 header)) ∧
  ((∀ r ∈ commandObjects img base m0 lc, r.Inside (commandBlock m0 header)) →
    Ends (commandOk img base m0 lc)
      (fun r => r.1 = commandRun img base m0 st lc ∧ r.2 = (if read32 m0 lc.toNat = 0x2 then lc else symtab) ∧
        read32 r.1.mem (lc + 4).toNat = read32 m0 (lc + 4).toNat ∧
        Ahead m0 header (lc + (read32 m0 (lc + 4).toNat).toUInt64) r.1.mem)
      (slideTurn img base lc symtab st))

variable (h : Ahead m0 header lc st.mem) (hroom : (commandBlock m0 header).stop ≤ 2 ^ 64)
  (hapart : CommandApart img base m0 header lc) (symtab : UInt64)

include h hroom hapart

theorem turn_segment (hin : Range.Inside ⟨lc.toNat, 8⟩ (commandBlock m0 header)) (hcmd : read32 st.mem lc.toNat = read32 m0 lc.toNat)
    (hcmdsize : read32 st.mem (lc + 4).toNat = read32 m0 (lc + 4).toNat) (hsize : 8 ≤ read32 m0 (lc + 4).toNat)
    (hseg : read32 m0 lc.toNat = 0x19) : Turn img base m0 header lc symtab st := by
  have hsmall : ¬ read32 m0 (lc + 4).toNat < 8 := UInt32.not_lt.mpr hsize
  unfold Turn
  rw [commandTouched, commandObjects, slideTurn, slideCommand, hcmd, hcmdsize]
  simp only [if_neg hsmall, if_pos hseg]
  by_cases hin72 : Range.Inside ⟨lc.toNat, 72⟩ (commandBlock m0 header)
  swap
  · have hsecond : ∀ {r s : Range} {l : List Range}, s ∈ r :: s :: l := List.mem_cons_of_mem _ List.mem_cons_self
    exact ⟨iff_of_false (fun h => hin72 (h _ hsecond)) fun h => hin72 (h _ hsecond), fun h => absurd (h _ hsecond) hin72⟩
  have hin' := (Range.inside_iff (Nat.succ_pos _)).mp hin72
  have hroom' := hroom
  have hstart : (commandBlock m0 header).start = header.toNat + 32 := rfl
  simp only [Range.stop] at hin' hroom'
  have hlc : lc.toNat ∈ commandBlock m0 header := hin.start
  have htail := h.tail hin'.1
  have h24 : (lc + 24).toNat = lc.toNat + 24 := toNat_add_lt (by show lc.toNat + 24 < _; omega)
  have h64 : (lc + 64).toNat = lc.toNat + 64 := toNat_add_lt (by show lc.toNat + 64 < _; omega)
  have hcount : read32 st.mem (lc + 64).toNat = read32 m0 (lc + 64).toNat :=
    htail.read32 (by rw [h64]; simp only [Range.stop]; omega)
  have hok : commandOk img base m0 lc = (decide (72 + (read32 m0 (lc + 64).toNat).toNat * 80 ≤ (read32 m0 (lc + 4).toNat).toNat) &&
      (sectionsOf m0 lc).all (sectionOk img base m0 lc)) := by
    rw [commandOk, decide_eq_true hsize, if_pos hseg, Bool.true_and]
  rw [hcount, hok]
  by_cases hshort : (read32 m0 (lc + 4).toNat).toNat < 72 + (read32 m0 (lc + 64).toNat).toNat * 80
  · simp only [if_pos hshort]
    exact ⟨trivial, fun _ => .error (by rw [decide_eq_false (by omega), Bool.false_and])⟩
  simp only [if_neg hshort]
  have hkeeps : ∀ {a n}, a + n ≤ lc.toNat + 24 ∨ lc.toNat + 32 ≤ a → SameOn ⟨a, n⟩ st.mem m0 →
      SameOn ⟨a, n⟩ (st.slide (slideOf img base) (lc + 24)).mem m0 := fun hapart hsame =>
    (slide_mem _ _ (Range.disjoint_iff.mpr (by rw [h24]; simp only; omega))).trans hsame
  have hpart : ∀ {a n}, lc.toNat ≤ a → a + n ≤ (commandBlock m0 header).start + (commandBlock m0 header).size →
      SameOn ⟨a, n⟩ st.mem m0 := fun ha hn =>
    htail.mono (Range.inside_of_le ha (by simp only [Range.stop]; omega))
  have hst : Intact m0 header lc (lc.toNat + 72) (st.slide (slideOf img base) (lc + 24)).mem := by
    constructor
    · exact hkeeps (.inl (by omega)) h.head
    · exact hkeeps (.inl (by omega)) (hpart (by omega) (by omega))
    · exact hkeeps (.inr (by omega)) (hpart (by omega) (by omega))
    · exact hkeeps (.inr (by omega)) (hpart (by omega) (by simp only [Range.stop]; omega))
  obtain ⟨hiff, hends⟩ := sections_walk hin72 hroom (hapart hseg) (read32 m0 (lc + 64).toNat).toNat (2 ^ 32) 0 _
    (by rw [UInt32.toNat_zero, Nat.zero_add]) (UInt32.toNat_lt _) hst
  rw [UInt32.toNat_zero, ← sectionsOf_eq] at hiff hends
  constructor
  · rw [List.forall_mem_cons, List.forall_mem_cons, List.forall_mem_cons, List.forall_mem_cons, List.forall_mem_map, hiff]
  · intro hobjects
    rw [List.forall_mem_cons, List.forall_mem_cons, List.forall_mem_map] at hobjects
    have hends := hends hobjects.2.2
    generalize slideSections img base lc (2 ^ 32) 0 (st.slide (slideOf img base) (lc + 24)) = result at hends
    cases hends with
    | error hbad => exact .error (by rw [hbad, Bool.and_false])
    | ok hgood hst =>
      obtain ⟨hrun, hst⟩ := hst
      refine .ok (by rw [hgood, decide_eq_true (by omega)]; rfl) ⟨?_, (if_neg (by rw [hseg]; decide)).symm, ?_, ?_⟩
      · rw [commandRun, if_pos hseg, ← hrun]
      · have h4 : (lc + 4).toNat = lc.toNat + 4 := toNat_add_lt (by show lc.toNat + 4 < _; omega)
        exact hst.front.read32 (by rw [h4]; simp only [Range.stop]; omega)
      · exact Ahead.next hlc hst.head hst.tail (by omega)

theorem turn : Turn img base m0 header lc symtab st := by
  by_cases hin : Range.Inside ⟨lc.toNat, 8⟩ (commandBlock m0 header)
  swap
  · exact ⟨iff_of_false (fun h => hin (h _ List.mem_cons_self)) fun h => hin (h _ List.mem_cons_self),
      fun h => absurd (h _ List.mem_cons_self) hin⟩
  have hin' := (Range.inside_iff (Nat.succ_pos _)).mp hin
  have hroom' := hroom
  simp only [Range.stop] at hin' hroom'
  have hlc : lc.toNat ∈ commandBlock m0 header := hin.start
  have htail := h.tail hin'.1
  have h4 : (lc + 4).toNat = lc.toNat + 4 := toNat_add_lt (by show lc.toNat + 4 < _; omega)
  have hcmd : read32 st.mem lc.toNat = read32 m0 lc.toNat :=
    htail.read32 ⟨Nat.le_refl _, by simp only [Range.stop]; omega⟩
  have hcmdsize : read32 st.mem (lc + 4).toNat = read32 m0 (lc + 4).toNat :=
    htail.read32 (by rw [h4]; simp only [Range.stop]; omega)
  by_cases hsmall : read32 m0 (lc + 4).toNat < 8
  · have hbad : commandOk img base m0 lc = false := by
      rw [commandOk, decide_eq_false (UInt32.not_le.mpr hsmall), Bool.false_and]
    unfold Turn
    rw [hbad, commandTouched, commandObjects, slideTurn, hcmdsize]
    simp only [if_pos hsmall]
    exact ⟨trivial, fun _ => .error rfl⟩
  have hsize : 8 ≤ read32 m0 (lc + 4).toNat := UInt32.not_lt.mp hsmall
  by_cases hseg : read32 m0 lc.toNat = 0x19
  · exact turn_segment h hroom hapart symtab hin hcmd hcmdsize hsize hseg
  have hsym : ¬ read32 m0 lc.toNat = 0x5 → commandOk img base m0 lc = true := by
    intro h5
    rw [commandOk, decide_eq_true hsize, if_neg hseg, if_neg h5]
    rfl
  unfold Turn
  rw [commandTouched, commandObjects, slideTurn, slideCommand, hcmd, hcmdsize]
  simp only [if_neg hsmall, if_neg hseg]
  by_cases hthread : read32 m0 lc.toNat = 0x5
  · have hok : commandOk img base m0 lc = decide (184 ≤ (read32 m0 (lc + 4).toNat).toNat) := by
      rw [commandOk, decide_eq_true hsize, if_neg hseg, if_pos hthread, Bool.true_and]
    simp only [if_pos hthread, hok]
    by_cases hshort : (read32 m0 (lc + 4).toNat).toNat < 184
    · simp only [if_pos hshort]
      exact ⟨trivial, fun _ => .error (decide_eq_false (by omega))⟩
    · simp only [if_neg hshort]
      refine ⟨trivial, fun hobjects => .ok (decide_eq_true (by omega)) ?_⟩
      have h184 := (Range.inside_iff (Nat.succ_pos _)).mp (hobjects ⟨lc.toNat, 184⟩ (by simp))
      simp only at h184
      have h144 : (lc + 144).toNat = lc.toNat + 144 := toNat_add_lt (by show lc.toNat + 144 < _; omega)
      have hstart : (commandBlock m0 header).start = header.toNat + 32 := rfl
      have hkeeps : ∀ {a n}, a + n ≤ lc.toNat + 144 ∨ lc.toNat + 152 ≤ a → SameOn ⟨a, n⟩ st.mem m0 →
          SameOn ⟨a, n⟩ (st.slide (slideOf img base) (lc + 144)).mem m0 := fun hapart hsame =>
        (slide_mem _ _ (Range.disjoint_iff.mpr (by rw [h144]; simp only; omega))).trans hsame
      have hrun : commandRun img base m0 st lc = st.slide (slideOf img base) (lc + 144) := by
        rw [commandRun, if_neg hseg, if_pos hthread]
      have hend : lc.toNat + 184 ≤ lc.toNat + (read32 m0 (lc + 4).toNat).toNat := by omega
      refine ⟨hrun.symm, (if_neg (by rw [hthread]; decide)).symm, ?_, Ahead.next hlc ?_ ?_ hend⟩
      · rw [h4]
        refine (hkeeps (a := lc.toNat) (n := 8) (.inl (by omega)) ?_).read32 (by simp only [Range.stop]; omega)
        exact htail.mono (Range.inside_of_le (Nat.le_refl _) (by simp only [Range.stop]; omega))
      · exact hkeeps (.inl (by omega)) h.head
      · refine hkeeps (.inr (by omega)) (htail.mono (Range.inside_of_le (by simp only; omega) ?_))
        simp only [Range.stop]
        omega
  have hrun : commandRun img base m0 st lc = st := by rw [commandRun, if_neg hseg, if_neg hthread]
  simp only [if_neg hthread]
  refine ⟨trivial, fun _ => ?_⟩
  split
  · exact .ok (hsym hthread) ⟨hrun.symm, rfl, hcmdsize, Ahead.next hlc h.head htail (by omega)⟩
  · exact .ok (hsym hthread) ⟨hrun.symm, rfl, hcmdsize, Ahead.next hlc h.head htail (by omega)⟩

end Command

/-! ## All commands -/

section Commands

variable {img : KernelImage} {base header : UInt64} {m0 : Mem}

theorem objectsFrom_cons (img : KernelImage) (base : UInt64) (m0 : Mem) (lc : UInt64) (commands : List UInt64) (symtab : UInt64) :
    objectsFrom img base m0 (lc :: commands) symtab = commandObjects img base m0 lc ++
      if commandOk img base m0 lc then objectsFrom img base m0 commands (if read32 m0 lc.toNat = 0x2 then lc else symtab) else [] := by
  rw [objectsFrom, reached, List.flatMap_cons, List.append_assoc, List.all_cons]
  cases hok : commandOk img base m0 lc with
  | true =>
    rw [if_pos rfl, if_pos rfl, Bool.true_and]
    rfl
  | false => simp

/-- The loop goes on while commands are left. -/
theorem Ahead.lt_ncmds_iff (hroom : (commandBlock m0 header).stop ≤ 2 ^ 64) {lc : UInt64} (h : Ahead m0 header lc m)
    (hn : index.toNat + n = (ncmds m0 header).toNat) : index < ncmds m header ↔ 0 < n := by
  have h16 : (header + 16).toNat = header.toNat + 16 := by
    have : header.toNat + 32 + (commandBlock m0 header).size ≤ 2 ^ 64 := hroom
    exact toNat_add_lt (by show header.toNat + 16 < _; omega)
  have hcount : ncmds m header = ncmds m0 header := h.head.read32 (by rw [h16]; simp only [Range.stop]; omega)
  rw [hcount]
  exact lt_iff_left hn

/-- The loop over the commands comes to what it would if it changed nothing, up to the first
    object that is not in the block. -/
theorem commands_walk (hroom : (commandBlock m0 header).stop ≤ 2 ^ 64) : ∀ (n fuel : Nat) (index : UInt32) (lc symtab : UInt64)
    (st : Sliding), index.toNat + n = (ncmds m0 header).toNat → n < fuel → Ahead m0 header lc st.mem →
    (∀ c ∈ reached (commandOk img base m0) (commandsFrom m0 n lc), CommandApart img base m0 header c) →
    ((∀ r ∈ commandsTouched img base header fuel index lc symtab st, r.Inside (commandBlock m0 header)) ↔
      ∀ r ∈ objectsFrom img base m0 (commandsFrom m0 n lc) symtab, r.Inside (commandBlock m0 header)) := by
  intro n
  induction n with
  | zero =>
    intro fuel index lc symtab st hn hfuel hst hapart
    obtain ⟨fuel, rfl⟩ := Nat.exists_eq_add_of_lt hfuel
    have hdone : ¬ index < ncmds st.mem header := fun h => Nat.lt_irrefl 0 ((hst.lt_ncmds_iff hroom hn).mp h)
    rw [Nat.zero_add, commandsTouched, if_neg hdone]
    by_cases hsym : symtab = 0
    · simp [objectsFrom, commandsFrom, reached, lastSymtab, hsym]
    · simp [objectsFrom, commandsFrom, reached, lastSymtab, hsym]
  | succ n ih =>
    intro fuel index lc symtab st hn hfuel hst hapart
    obtain ⟨fuel, rfl⟩ := Nat.exists_eq_add_of_lt hfuel
    have hmore : index < ncmds st.mem header := (hst.lt_ncmds_iff hroom hn).mpr (Nat.succ_pos n)
    rw [commandsFrom, reached, List.forall_mem_cons] at hapart
    obtain ⟨hiff, hends⟩ := turn hst hroom hapart.1 symtab
    rw [commandsTouched, if_pos hmore, commandsFrom, objectsFrom_cons, List.forall_mem_append, List.forall_mem_append, hiff]
    refine and_congr_right fun hobjects => ?_
    have hends := hends hobjects
    generalize slideTurn img base lc symtab st = result at hends
    cases hends with
    | error hbad =>
      rw [if_neg (by rw [hbad]; decide)]
    | ok hgood hr =>
      rename_i r
      obtain ⟨-, hsym, hcmdsize, hahead⟩ := hr
      rw [if_pos hgood] at hapart ⊢
      dsimp only
      rw [← hsym, hcmdsize]
      exact ih (n + 1 + fuel) (index + 1) _ _ r.1 (index_succ hn) (by omega) hahead hapart.2

/-- The sections of pointers that the pass comes to lie apart from the header that it walks. -/
def HeaderApart (img : KernelImage) (base : UInt64) (mem : Mem) (header : UInt64) : Prop :=
  ∀ lc ∈ reached (commandOk img base mem) (headerCommands mem header), CommandApart img base mem header lc

end Commands

/-- Every load command, section header and thread state that the pass accesses is in the
    `sizeofcmds` bytes behind the header exactly if this is so for those that the header has
    before the pass. -/
theorem header_walk_inside_iff (img : KernelImage) (base : UInt64) (st : Sliding)
    (hroom : ∀ header ∈ foundHeader img base st.mem, (commandBlock st.mem header).stop ≤ 2 ^ 64)
    (hapart : ∀ header ∈ foundHeader img base st.mem, HeaderApart img base st.mem header) :
    (∀ header ∈ foundHeader img base st.mem, ∀ r ∈ headerTouched img base st, r.Inside (commandBlock st.mem header)) ↔
      ∀ header ∈ foundHeader img base st.mem, ∀ r ∈ headerObjects img base st.mem header, r.Inside (commandBlock st.mem header) := by
  refine forall_congr' fun header => forall_congr' fun hfound => ?_
  have hroom := hroom header hfound
  rw [headerTouched, Option.mem_def.mp hfound]
  refine commands_walk hroom _ _ _ _ _ st (by rw [UInt32.toNat_zero, Nat.zero_add]) (UInt32.toNat_lt _) ?_ (hapart header hfound)
  exact ⟨.refl _ _, fun _ => .refl _ _⟩

/-- The first command is read whatever `sizeofcmds` is. -/
theorem first_command_touched (hfound : foundHeader img base st.mem = some header)
    (hcount : 0 < ncmds st.mem header) : ⟨(header + 32).toNat, 8⟩ ∈ headerTouched img base st := by
  rw [headerTouched, hfound]
  show _ ∈ commandsTouched img base header (2 ^ 32 - 1 + 1) 0 (header + 32) 0 st
  rw [commandsTouched, if_pos hcount]
  exact List.mem_append_left _ List.mem_cons_self

/-- The file of one segment, with a header that says its commands take no bytes. -/
def noSizeOfCommands : List UInt8 :=
  machHeader 2 0 ++ segmentCommand "__TEXT" 0x100000 0x1000 0 288 [] ++ threadCommand 0x100000

def noSizeStaged : Mem := put (fun x => if 0x200000 ≤ x ∧ x < 0x200000 + 0x1000 then 0 else 0xff) 0x200000 noSizeOfCommands

theorem noSizeOfCommands_length : noSizeOfCommands.length = 288 := by
  simp [noSizeOfCommands, machHeader, segmentCommand, threadCommand, nameField16]

theorem noSizeStaged_eq : (stageSegments noSizeOfCommands (oneSegmentImage 0x1000 0) 0x200000 ⟨0x200000, 0x1000⟩ fun _ => 0xff).run =
    some (.ok noSizeStaged) := by
  have hfile : (noSizeOfCommands.drop 0).take 288 = noSizeOfCommands := by
    rw [List.drop_zero, ← noSizeOfCommands_length, List.take_length]
  have hcopy : ∀ mem, copySegment noSizeOfCommands (oneSegmentImage 0x1000 0) 0x200000 ⟨0x200000, 0x1000⟩ mem
      ⟨nameField16 "__TEXT", 0x100000, 0x1000, 0, 288, 7, 5⟩ = pure (put mem 0x200000 noSizeOfCommands) := by
    intro mem
    rw [copySegment, if_neg (by decide), noSizeOfCommands_length, if_neg (by decide), copyFromFile?, noSizeOfCommands_length,
      if_pos (by decide)]
    show (pure (put mem 0x200000 ((noSizeOfCommands.drop 0).take 288)) : ExceptT EfiStatus Option Mem) = _
    rw [hfile]
  have hsegments : (oneSegmentImage 0x1000 0).segments = [⟨nameField16 "__TEXT", 0x100000, 0x1000, 0, 288, 7, 5⟩] := rfl
  rw [stageSegments, zeroMemory?, if_pos (by decide), hsegments]
  simp only [List.foldlM_cons, List.foldlM_nil, hcopy]
  rfl

/-- The parser takes the file, and the pass walks commands that the header does not announce. -/
theorem a_command_is_outside :
    (parseKernelMacho noSizeOfCommands).run = some (.ok (oneSegmentImage 0x1000 0)) ∧
    (stageSegments noSizeOfCommands (oneSegmentImage 0x1000 0) 0x200000 ⟨0x200000, 0x1000⟩ fun _ => 0xff).run =
      some (.ok noSizeStaged) ∧
    rebaseKernelLocals noSizeOfCommands (oneSegmentImage 0x1000 0) 0x200000 ⟨noSizeStaged, []⟩ = .ok ⟨noSizeStaged, []⟩ ∧
    foundHeader (oneSegmentImage 0x1000 0) 0x200000 noSizeStaged = some 0x200000 ∧
    ¬ ∀ r ∈ headerTouched (oneSegmentImage 0x1000 0) 0x200000 ⟨noSizeStaged, []⟩, r.Inside (commandBlock noSizeStaged 0x200000) := by
  have hreads : (parseKernelMacho noSizeOfCommands).run = some (.ok (oneSegmentImage 0x1000 0)) ∧
      foundHeader (oneSegmentImage 0x1000 0) 0x200000 noSizeStaged = some 0x200000 ∧
      0 < ncmds noSizeStaged 0x200000 ∧ commandBlock noSizeStaged 0x200000 = ⟨0x200020, 0⟩ := by decide +kernel
  obtain ⟨hparse, hfound, hcount, hblock⟩ := hreads
  refine ⟨hparse, noSizeStaged_eq, ?_, hfound, fun h => ?_⟩
  · rw [rebaseKernelLocals, if_neg (by decide), if_pos (.inr rfl)]
  · have hin := h _ (first_command_touched hfound hcount)
    rw [hblock] at hin
    have := (Range.inside_iff (Nat.succ_pos _)).mp hin
    simp at this

end Panthera.Boot
