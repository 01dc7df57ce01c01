/-
  Panthera.Fixups.Chained — chained fixups, as dyld (`applyChainedFixups`) walks and decodes
  them.

  A slot of a chain holds a word that says what to store there and how far on the next
  slot is, so dyld reads a chain that it is overwriting. The loops over segments and pages
  are said in the words of the format, with one turn of the walk (`Dyld.walkChain_step`), what a
  word decodes to (`Dyld.chainedFixup_eq`) and that a visit leaves the other slots alone
  (`Dyld.Holds.chainVisit`).
-/

import Panthera.Lib.Chain
import Panthera.Cache.Fixups
import Panthera.Dyld.Fixups

namespace Panthera.Fixups

open MachO Lib.Bytes Lib.Chain

/-! ## The format -/

namespace Chained

section Data

variable (data : Mem)

def startsOffset : Nat := (read32 data 4).toNat
def importsOffset : Nat := (read32 data 8).toNat
def symbolsOffset : Nat := (read32 data 12).toNat
def importsCount : Nat := (read32 data 16).toNat

def segCount : Nat := (read32 data (startsOffset data)).toNat

/-- `seg_info_offset[seg]`; 0 for a segment without fixups. -/
def infoOffset (seg : Nat) : Nat := (read32 data (startsOffset data + 4 + 4 * seg)).toNat

def info (seg : Nat) : Nat := startsOffset data + infoOffset data seg

def infoSize (seg : Nat) : Nat := (read32 data (info data seg)).toNat
def pageSize (seg : Nat) : Nat := (read16 data (info data seg + 4)).toNat
def pointerFormat (seg : Nat) : UInt16 := read16 data (info data seg + 6)
def segmentOffset (seg : Nat) : UInt64 := read64 data (info data seg + 8)
def pageCount (seg : Nat) : Nat := (read16 data (info data seg + 20)).toNat
def pageStart (seg page : Nat) : UInt16 := read16 data (info data seg + 22 + 2 * page)

end Data

def isBind (raw : UInt64) : Bool := (raw >>> 63) &&& 1 != 0

/-- How far on the next slot is: 12 bits, in words of 4 bytes. -/
def stride (raw : UInt64) : Nat := ((raw >>> 51) &&& 0xFFF).toNat * 4

/-- A slot that is visited, with the word it holds and the format of its segment. -/
structure Visit where
  fmt : UInt16
  slot : Nat
  raw : UInt64
  deriving DecidableEq, Repr

def Visit.Apart (v u : Visit) : Prop := v.slot + 8 ≤ u.slot ∨ u.slot + 8 ≤ v.slot

instance : DecidableRel Visit.Apart := fun _ _ => inferInstanceAs (Decidable (_ ∨ _))

end Chained

open Chained

/-- What a word of a chain asks for. The target of a rebase is an address, or an offset
    from the image's header. -/
inductive Decoded where
  | rebase (fromHeader : Bool) (target : UInt64) (tag : UInt8)
  | bind (name : CStr) (addend : UInt64) (libOrdinal : Int)
  /-- An import past the table. -/
  | pastTable
  /-- An import whose name is not inside the data. -/
  | malformed
  | unknownFormat
  deriving DecidableEq, Repr

def tagBits (tag : UInt8) : UInt64 := tag.toUInt64 <<< 56

theorem tagBits_eq (raw : UInt64) : tagBits ((raw >>> 36) &&& 0xFF).toUInt8 = ((raw >>> 36) &&& 0xFF) <<< 56 := by
  have h : ((raw >>> 36) &&& 0xFF).toUInt8.toUInt64 = (raw >>> 36) &&& 0xFF := by
    apply UInt64.toNat_inj.mp
    have hm : ((raw >>> 36) &&& 0xFF).toNat = (raw >>> 36).toNat % 256 := by
      rw [UInt64.toNat_and]
      exact Nat.and_two_pow_sub_one_eq_mod _ 8
    rw [UInt64.toUInt64_toUInt8]
    simp [hm]
  rw [tagBits, h]

/-! ## dyld -/

namespace Dyld

open Panthera.Dyld

/-- The decoding that `chainedFixup` makes. -/
def chainedDecode (ld : LinkeditData) (h : ChainedHeader) (pointerFormat : UInt16) (raw : UInt64) : Decoded :=
  if (raw >>> 63) &&& 1 = 0 then
    let target := raw &&& 0xFFFFFFFFF
    let high8 := ((raw >>> 36) &&& 0xFF).toUInt8
    if pointerFormat = 2 then .rebase false target high8
    else if pointerFormat = 6 then .rebase true target high8
    else .unknownFormat
  else if (raw &&& 0xFFFFFF).toNat < h.importsCount then
    match chainedImport ld h (raw &&& 0xFFFFFF).toNat with
    | none => .malformed
    | some (name, libOrdinal) => .bind name (raw >>> 24).toUInt8.toInt8.toInt64.toUInt64 libOrdinal
  else .pastTable

def chainedStore (W : World) (i : Nat) (img : LoadedImage) (loc : Nat) (st : Proc) : Decoded → Proc
  | .rebase fromHeader target tag =>
    st.store loc ((if fromHeader then img.header + target else target + img.slide) ||| tagBits tag)
  | .bind name addend libOrdinal =>
    match resolveSymbol W name libOrdinal false (some i) st with
    | (addr, st) => st.store loc (if addr ≠ 0 then addr + addend else 0)
  | .malformed => st.store loc 0
  | .pastTable | .unknownFormat => st

theorem chainedFixup_eq (W : World) (i : Nat) (img : LoadedImage) (ld : LinkeditData) (h : ChainedHeader) (fmt : UInt16)
    (loc : Nat) (raw : UInt64) (st : Proc) :
    chainedFixup W i img ld h fmt loc raw st = chainedStore W i img loc st (chainedDecode ld h fmt raw) := by
  unfold chainedFixup chainedDecode chainedRebase
  split
  · dsimp only
    by_cases h2 : fmt = 2
    · simp only [h2, if_true, chainedStore, tagBits_eq, Bool.false_eq_true, if_false]
    · by_cases h6 : fmt = 6
      · subst h6
        simp only [h2, if_false, if_true, chainedStore, tagBits_eq]
      · simp [h2, h6, chainedStore]
  · dsimp only
    split
    · rcases chainedImport ld h (raw &&& 0xFFFFFF).toNat with _ | ⟨name, libOrdinal⟩
      · rfl
      · rfl
    · rfl

/-- The number of segments, if dyld takes the data for well formed. -/
def accepted (W : World) (img : LoadedImage) (ld : LinkeditData) : Option Nat :=
  (linkeditOf W.cache img).bind fun segs => chainedStarts segs.2 ld (.read (memOf ld.bytes))

def chainVisit (W : World) (i : Nat) (img : LoadedImage) (ld : LinkeditData) (v : Visit) (st : Proc) : Proc :=
  chainedFixup W i img ld (.read (memOf ld.bytes)) v.fmt v.slot v.raw st

end Dyld

def addendOf (raw : UInt64) : UInt64 := (raw >>> 24).toUInt8.toInt8.toInt64.toUInt64

/-! ## dyld's run -/

section DyldRun

open Panthera.Dyld

/-! ### The loops, in the words of the format -/

variable {st : Proc}

section Loops

variable {W : World} {i : Nat} {img : LoadedImage} {ld : LinkeditData}

theorem Dyld.chainedPage_eq (seg : Nat) (st : Proc) (page : Nat) :
    chainedPage W i img ld (.read (memOf ld.bytes)) (info (memOf ld.bytes) seg) st page =
      if pageStart (memOf ld.bytes) seg page = 0xFFFF ∨ pageStart (memOf ld.bytes) seg page &&& 0x8000 ≠ 0 then some st
      else if 2 ^ 31 ≤ page * pageSize (memOf ld.bytes) seg then none
      else some (walkChain (chainedFixup W i img ld (.read (memOf ld.bytes)) (pointerFormat (memOf ld.bytes) seg))
        (img.header + segmentOffset (memOf ld.bytes) seg + UInt64.ofNat (page * pageSize (memOf ld.bytes) seg))
        (img.header + segmentOffset (memOf ld.bytes) seg + UInt64.ofNat (page * pageSize (memOf ld.bytes) seg) +
          UInt64.ofNat (pageSize (memOf ld.bytes) seg)) (pageSize (memOf ld.bytes) seg / 4 + 1)
        (img.header + segmentOffset (memOf ld.bytes) seg + UInt64.ofNat (page * pageSize (memOf ld.bytes) seg) +
          (pageStart (memOf ld.bytes) seg page).toUInt64) st) := rfl

theorem Dyld.chainedSegment_eq (st : Proc) (seg : Nat) :
    chainedSegment W i img ld (.read (memOf ld.bytes)) st seg =
      if infoOffset (memOf ld.bytes) seg = 0 then some st
      else if rangeWithin ld.datasize.toNat (info (memOf ld.bytes) seg) 24 = false ∨ infoSize (memOf ld.bytes) seg < 24 ∨
          rangeWithin ld.datasize.toNat (info (memOf ld.bytes) seg) (infoSize (memOf ld.bytes) seg) = false then some st
      else if infoSize (memOf ld.bytes) seg < 22 + 2 * pageCount (memOf ld.bytes) seg ∨
          read16 (memOf ld.bytes) (info (memOf ld.bytes) seg + 4) = 0 then some st
      else (List.range (pageCount (memOf ld.bytes) seg)).foldlM
        (chainedPage W i img ld (.read (memOf ld.bytes)) (info (memOf ld.bytes) seg)) st := rfl

/-- An image has one command with chained fixups at most. -/
theorem Dyld.applyChainedFixups_eq (himg : st.images[i]? = some img) (hone : chainedData img.commands = [ld]) :
    applyChainedFixups W i st =
      match Dyld.accepted W img ld with
      | none => some st
      | some n => (List.range n).foldlM (chainedSegment W i img ld (.read (memOf ld.bytes))) st := by
  have hcmd : chainedCommands W i img [ld] st =
      match Dyld.accepted W img ld with
      | none => some st
      | some n => ((List.range n).foldlM (chainedSegment W i img ld (.read (memOf ld.bytes))) st).bind some := rfl
  unfold applyChainedFixups
  rw [himg]
  dsimp only
  rw [hone, hcmd]
  split
  · rfl
  · exact Option.bind_fun_some _

end Loops

theorem leaves_page_iff {pageAddr pageEnd : UInt64} {a : Nat} (h : a + 8 < 2 ^ 64) :
    (UInt64.ofNat a < pageAddr ∨ pageEnd < UInt64.ofNat a + 8) ↔ a < pageAddr.toNat ∨ pageEnd.toNat < a + 8 := by
  have ha : (UInt64.ofNat a).toNat = a := UInt64.toNat_ofNat_of_lt' (by show a < 2 ^ 64; omega)
  have ha8 : (UInt64.ofNat a + 8).toNat = a + 8 := by
    rw [UInt64.toNat_add, ha, show (8 : UInt64).toNat = 8 from rfl]
    omega
  rw [UInt64.lt_iff_toNat_lt, UInt64.lt_iff_toNat_lt, ha, ha8]

/-- One turn of dyld's walk at a word inside its page. -/
theorem Dyld.walkChain_step (fix : Nat → UInt64 → Proc → Proc) {pageAddr pageEnd : UInt64} {a : Nat} {raw : UInt64}
    (hlo : pageAddr.toNat ≤ a) (hhi : a + 8 ≤ pageEnd.toNat) (n : Nat) (st : Proc) (hraw : read64 st.mem a = raw) :
    walkChain fix pageAddr pageEnd (n + 1) (UInt64.ofNat a) st =
      if stride raw = 0 then fix a raw st
      else walkChain fix pageAddr pageEnd n (UInt64.ofNat (a + stride raw)) (fix a raw st) := by
  have hend := pageEnd.toNat_lt
  have ha : (UInt64.ofNat a).toNat = a := UInt64.toNat_ofNat_of_lt' (by show a < 2 ^ 64; omega)
  have hguard : ¬ (UInt64.ofNat a < pageAddr ∨ pageEnd < UInt64.ofNat a + 8) := by
    rw [leaves_page_iff (by omega)]
    omega
  have hstride : (raw >>> 51) &&& 0xFFF = 0 ↔ stride raw = 0 := by
    unfold stride
    rw [← UInt64.toNat_inj]
    simp only [UInt64.toNat_zero]
    omega
  have hnext : UInt64.ofNat (a + stride raw) = UInt64.ofNat a + ((raw >>> 51) &&& 0xFFF) * 4 := by
    rw [stride, UInt64.ofNat_add, UInt64.ofNat_mul, UInt64.ofNat_toNat]
    rfl
  rw [walkChain, if_neg hguard]
  simp only [ha, hraw, hstride, hnext]

/-- The states between `st0` and the end of dyld's run. -/
inductive Dyld.During (W : World) (i : Nat) (img : LoadedImage) (ld : LinkeditData) (st0 : Proc) : Proc → Prop where
  | start : During W i img ld st0 st0
  | visit (v : Visit) {st : Proc} : During W i img ld st0 st → During W i img ld st0 (Dyld.chainVisit W i img ld v st)

/-- The slot is as it was before the run. -/
def Dyld.Holds (W : World) (i : Nat) (img : LoadedImage) (ld : LinkeditData) (st0 : Proc) (u : Visit) (st : Proc) : Prop :=
  Dyld.During W i img ld st0 st ∧ read64 st.mem u.slot = u.raw

variable {W : World} {i : Nat} {img : LoadedImage} {ld : LinkeditData} {st0 : Proc}

/-- A visit leaves a slot that is apart from it alone, if what it loads does. -/
theorem Dyld.Holds.chainVisit {v u : Visit} (h : Dyld.Holds W i img ld st0 u st) (hap : v.Apart u)
    (hres : ∀ name ordinal, ∀ j < 8, (resolveSymbol W name ordinal false (some i) st).2.mem (u.slot + j) = st.mem (u.slot + j)) :
    Dyld.Holds W i img ld st0 u (Dyld.chainVisit W i img ld v st) := by
  have hstore : ∀ (st : Proc) (x : UInt64), read64 st.mem u.slot = u.raw → read64 (st.store v.slot x).mem u.slot = u.raw :=
    fun st x h => (read64_write64_disjoint hap).trans h
  refine ⟨.visit v h.1, ?_⟩
  unfold Dyld.chainVisit
  rw [Dyld.chainedFixup_eq]
  cases Dyld.chainedDecode ld (.read (memOf ld.bytes)) v.fmt v.raw with
  | rebase fromHeader target tag => exact hstore st _ h.2
  | bind name addend libOrdinal =>
    refine hstore _ _ ?_
    rw [← h.2]
    exact read64_congr (hres name libOrdinal)
  | malformed => exact hstore st _ h.2
  | pastTable => exact h.2
  | unknownFormat => exact h.2

/-- An image that needs no dylib loads none to resolve a symbol. -/
theorem resolveSymbol_alone (W : World) (name : CStr) (ordinal : Int) {i : Nat} (h : ordinalPath st.images i ordinal = none) :
    ∃ ix, (resolveSymbol W name ordinal false (some i) st).2 = { st with index := ix } := by
  have hfind : findOrdinalImage W i ordinal st = (none, st) := by simp [findOrdinalImage, h]
  simp only [resolveSymbol, hfind]
  repeat' split
  all_goals exact ⟨_, rfl⟩

variable (hpath : ∀ n, ordinalPath st0.images i n = none) (h : Dyld.During W i img ld st0 st)
include hpath h

/-- So a run over the chains of such an image leaves the table of images alone, and what it
    resolves leaves memory alone. -/
theorem Dyld.During.images_alone : st.images = st0.images := by
  induction h with
  | start => rfl
  | @visit v st _ ih =>
    rw [Dyld.chainVisit, Dyld.chainedFixup_eq]
    cases Dyld.chainedDecode ld (.read (memOf ld.bytes)) v.fmt v.raw with
    | bind name addend libOrdinal =>
      obtain ⟨ix, hix⟩ := resolveSymbol_alone W name libOrdinal (i := i) (ih ▸ hpath libOrdinal)
      show (resolveSymbol W name libOrdinal false (some i) st).2.images = _
      rw [hix]
      exact ih
    | _ => exact ih

theorem Dyld.During.mem_alone (name : CStr) (n : Int) :
    (resolveSymbol W name n false (some i) st).2.mem = st.mem := by
  obtain ⟨ix, hix⟩ := resolveSymbol_alone W name n (i := i) (h.images_alone hpath ▸ hpath n)
  rw [hix]

end DyldRun

end Panthera.Fixups
