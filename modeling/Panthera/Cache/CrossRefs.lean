/-
  Panthera.Cache.CrossRefs — displacements from code to data in the split cache
  (`build_shared_cache_real.c`: `add_disp32_checked`, `find_section_orig`,
  `is_in_data_region`, `get_code_to_data_delta`, `patch_stubs`, `patch_text_rip_refs`,
  `patch_cross_segment_refs`).

  TEXT and DATA move by different amounts, so the displacements between them are rewritten.
  One amount is taken for all the data of a dylib, that of its first DATA segment. The state
  is the cache buffer; `rewritten` is not the builder's, it keeps which fields were rewritten
  for which dylib. The builder checks no offset against the size of its buffer; the buffer
  here has no end.

  `follows_iff`: when a displacement that was rewritten leads where the data went.
-/

import Mathlib
import Panthera.Lib.Run
import Panthera.Cache.Layout
import Panthera.Cache.RipRel

namespace Panthera.Cache

open MachO Lib.Bytes Lib.Run

/-! ## The patchers -/

/-- `none` where the sum leaves 32 bits. -/
def addDisp32Checked (disp : UInt32) (delta : Int64) : Option UInt32 :=
  let adjusted : Int64 := disp.toInt32.toInt64 + delta
  if adjusted < -2147483648 ∨ 2147483647 < adjusted then none else some adjusted.toInt32.toUInt32

def findSectionOrig (d : DylibInfo) (segname sectname : CStr) : Option Section64 :=
  (((segmentsOf d.commands).filter (·.segname == segname)).flatMap (·.sections)).find? (·.sectname == sectname)

def SegInfo.isData (s : SegInfo) : Bool := s.region = .data

def isInDataRegion (d : DylibInfo) (addr : UInt64) : Bool := d.segs.any fun s => s.isData && s.contains addr

def DylibInfo.firstData (d : DylibInfo) : Option SegInfo := d.segs.find? (·.isData)

/-- The first DATA segment's slide minus the TEXT segment's. -/
def getCodeToDataDelta (d : DylibInfo) : Int64 :=
  match d.firstData with
  | some s => s.slide.toInt64 - d.textSeg.slide.toInt64
  | none => 0

structure Patched where
  buf : Mem
  rewritten : List (DylibInfo × Nat)

/-- Add `delta` to the displacement at `field`; `none` where the builder gives up. -/
def patchField (d : DylibInfo) (field : Nat) (st : Patched) : Option Patched :=
  (addDisp32Checked (read32 st.buf field) (getCodeToDataDelta d)).map fun newDisp =>
    ⟨write32 st.buf field newDisp, st.rewritten ++ [(d, field)]⟩

/-- Where a section of the TEXT segment begins in the buffer. -/
def textOffset (d : DylibInfo) (sect : Section64) : Nat :=
  (d.textSeg.cacheFileOff + (sect.addr - d.textSeg.origVmaddr)).toNat

def bytesAt (buf : Mem) (off : Nat) (bytes : List UInt8) : Bool := (List.range bytes.length).all fun i => bytes[i]? = some (buf (off + i))

/-- The entries of `__stubs`: `jmp` through a displacement. -/
def patchStubEntries (d : DylibInfo) (stubs : Section64) (st : Patched) : Option Patched :=
  let stubSize := if stubs.reserved2 ≠ 0 then stubs.reserved2 else 6
  let numStubs := (stubs.size / stubSize.toUInt64).toUInt32
  (List.range numStubs.toNat).foldlM (fun st i =>
    let entry := textOffset d stubs + (UInt32.ofNat i * stubSize).toNat
    if bytesAt st.buf entry [0xff, 0x25] then patchField d (entry + 2) st else some st) st

/-- The head of `__stub_helper`: `lea` into `r11`, then `push` of it and `jmp`. -/
def patchStubHelper (d : DylibInfo) (stubHelper : Section64) (st : Patched) : Option Patched :=
  let sh := textOffset d stubHelper
  (if bytesAt st.buf sh [0x4c, 0x8d, 0x1d] then patchField d (sh + 3) st else some st).bind fun st =>
    if bytesAt st.buf (sh + 7) [0x41, 0x53, 0xff, 0x25] then patchField d (sh + 11) st else some st

def patchStubs (d : DylibInfo) (st : Patched) : Option Patched :=
  if getCodeToDataDelta d = 0 then some st
  else
    (match findSectionOrig d segText (cstr "__stubs") with
      | some stubs => if 0 < stubs.size then patchStubEntries d stubs st else some st
      | none => some st).bind fun st =>
    match findSectionOrig d segText (cstr "__stub_helper") with
    | some stubHelper => if 16 ≤ stubHelper.size then patchStubHelper d stubHelper st else some st
    | none => some st

/-- `isCode`, less the sections that `patch_stubs` has done. -/
def isScanned (sect : Section64) : Bool :=
  sect.sectname ≠ cstr "__stubs" && sect.sectname ≠ cstr "__stub_helper" &&
    (sect.sectname = cstr "__text" || sect.type = 0x08)

/-- One position of the scan over a section. -/
def patchPosition (d : DylibInfo) (sect : Section64) (st : Patched) (pos : Nat) : Option Patched :=
  let off := textOffset d sect
  match decodeRiprelDisp32 (st.buf.from off) pos sect.size.toNat with
  | (false, _) => some st
  | (true, trailingImm) =>
    let instrDispAddr := d.textSeg.origVmaddr + (sect.addr - d.textSeg.origVmaddr) + UInt64.ofNat pos
    if isInDataRegion d (riprelTarget instrDispAddr (read32 st.buf (off + pos)) trailingImm) then patchField d (off + pos) st
    else some st

def patchTextRipRefs (d : DylibInfo) (st : Patched) : Option Patched :=
  if getCodeToDataDelta d = 0 then some st
  else
    ((((segmentsOf d.commands).filter (·.segname == segText)).flatMap (·.sections)).filter isScanned).foldlM
      (fun st sect => (List.range (sect.size.toNat - 3)).foldlM (patchPosition d sect) st) st

def patchCrossSegmentRefs (ds : List DylibInfo) (st : Patched) : Option Patched :=
  ds.foldlM (fun st d => if d.firstData.isNone then some st else (patchStubs d st).bind (patchTextRipRefs d)) st

/-! ## What is rewritten -/

/-- Two fields of four bytes have bytes in common. -/
def FieldsOverlap (field field' : Nat) : Prop := field < field' + 4 ∧ field' < field + 4

instance (field field' : Nat) : Decidable (FieldsOverlap field field') := inferInstanceAs (Decidable (_ ∧ _))

/-- Of the fields that were rewritten, `field` overlaps itself alone, and was rewritten once. -/
def Alone (rewritten : List (DylibInfo × Nat)) (field : Nat) : Prop := rewritten.countP (fun e => FieldsOverlap e.2 field) = 1

instance (rewritten : List (DylibInfo × Nat)) (field : Nat) : Decidable (Alone rewritten field) := inferInstanceAs (Decidable (_ = _))

/-- What patching keeps: bytes outside the fields that were rewritten are as they were, and a field
    that is alone has had the amount of its dylib added. -/
structure Kept (ds : List DylibInfo) (original : Mem) (st : Patched) : Prop where
  outside : ∀ x, (∀ e ∈ st.rewritten, x < e.2 ∨ e.2 + 4 ≤ x) → st.buf x = original x
  dylib : ∀ e ∈ st.rewritten, e.1 ∈ ds ∧ e.1.firstData.isSome
  added : ∀ e ∈ st.rewritten, Alone st.rewritten e.2 →
    addDisp32Checked (read32 original e.2) (getCodeToDataDelta e.1) = some (read32 st.buf e.2)

section

variable {ds : List DylibInfo} {original : Mem} {d : DylibInfo}

theorem Kept.start (ds : List DylibInfo) (original : Mem) : Kept ds original ⟨original, []⟩ where
  outside _ _ := rfl
  dylib e h := by cases h
  added e h := by cases h

section

variable {st : Patched} (hd : d ∈ ds) (hdata : d.firstData.isSome) (h : Kept ds original st)

include hd hdata h

/-- One field. -/
theorem Kept.patchField (field : Nat) : Sound (Kept ds original) (patchField d field st) := by
  intro st' hst'
  obtain ⟨newDisp, hadd, rfl⟩ := Option.map_eq_some_iff.mp hst'
  refine ⟨?_, ?_, ?_⟩
  · intro x hx
    have hfield : x < field ∨ field + 4 ≤ x := hx (d, field) (List.mem_append_right _ List.mem_cons_self)
    rw [← h.outside x fun e he => hx e (List.mem_append_left _ he)]
    exact writeLE_outside _ hfield
  · intro e he
    rcases List.mem_append.mp he with he | he
    · exact h.dylib e he
    · rw [List.mem_singleton.mp he]
      exact ⟨hd, hdata⟩
  · intro e he halone
    unfold Alone at halone
    rw [List.countP_append, List.countP_singleton] at halone
    rcases List.mem_append.mp he with he | he
    · -- a field of before overlaps itself, so the new one is apart from it
      have hself : 0 < st.rewritten.countP fun e' => FieldsOverlap e'.2 e.2 :=
        List.countP_pos_iff.mpr ⟨e, he, decide_eq_true ⟨by omega, by omega⟩⟩
      have hnew : ¬ FieldsOverlap field e.2 := fun hov => by rw [if_pos (decide_eq_true hov)] at halone; omega
      rw [if_neg (by simpa using hnew)] at halone
      rw [h.added e he halone]
      refine congrArg some (read32_write32_disjoint ?_).symm
      unfold FieldsOverlap at hnew
      omega
    · obtain rfl := List.mem_singleton.mp he
      have hnone : st.rewritten.countP (fun e' => FieldsOverlap e'.2 field) = 0 := by
        rw [if_pos (decide_eq_true ⟨by simp, by simp⟩)] at halone
        exact Nat.succ.inj halone
      have hsame : read32 original field = read32 st.buf field := by
        refine read32_congr fun i hi => (h.outside _ fun e' he' => ?_).symm
        have := of_decide_eq_false (Bool.eq_false_of_not_eq_true (List.countP_eq_zero.mp hnone e' he'))
        unfold FieldsOverlap at this
        omega
      rw [hsame, hadd, read32_write32]

/-- A choice between a field and nothing. -/
theorem Kept.patchField_if (c : Prop) [Decidable c] (field : Nat) :
    Sound (Kept ds original) (if c then Cache.patchField d field st else some st) := by
  split
  · exact h.patchField hd hdata field
  · exact .some h

theorem Kept.patchStubs : Sound (Kept ds original) (patchStubs d st) := by
  unfold Cache.patchStubs
  split
  · exact .some h
  · refine Sound.bind ?_ fun st h => ?_
    · split
      · split
        · exact Sound.foldlM (fun st i h => h.patchField_if hd hdata _ _) _ h
        · exact .some h
      · exact .some h
    · split
      · split
        · exact Sound.bind (h.patchField_if hd hdata _ _) fun st h => h.patchField_if hd hdata _ _
        · exact .some h
      · exact .some h

theorem Kept.patchTextRipRefs : Sound (Kept ds original) (patchTextRipRefs d st) := by
  unfold Cache.patchTextRipRefs
  split
  · exact .some h
  · refine Sound.foldlM (fun st sect h => Sound.foldlM (fun st pos h => ?_) _ h) _ h
    unfold patchPosition
    simp only
    split
    · exact .some h
    · exact h.patchField_if hd hdata _ _

end

/-- The whole run. -/
theorem kept_patchCrossSegmentRefs (ds : List DylibInfo) (original : Mem) :
    Sound (Kept ds original) (patchCrossSegmentRefs ds ⟨original, []⟩) := by
  suffices hrun : ∀ (l : List DylibInfo), (∀ d ∈ l, d ∈ ds) → ∀ st, Kept ds original st →
      Sound (Kept ds original) (patchCrossSegmentRefs l st) from hrun ds (fun _ h => h) _ (.start ds original)
  intro l
  induction l with
  | nil => exact fun _ st h => .some h
  | cons d l ih =>
    intro hl st h
    have hd := hl d List.mem_cons_self
    unfold patchCrossSegmentRefs
    rw [List.foldlM_cons]
    refine Sound.bind ?_ fun st h => ih (fun d hd => hl d (List.mem_cons_of_mem _ hd)) st h
    split
    · exact .some h
    · rename_i hdata
      have hsome : d.firstData.isSome := by simpa [Option.isNone_iff_eq_none, Option.isSome_iff_ne_none] using hdata
      exact Sound.bind (h.patchStubs hd hsome) fun st h => h.patchTextRipRefs hd hsome

end

/-! ## Where the DATA segments go -/

/-- The room that the segments of a region take, laid end to end. -/
def regionSize (r : Region) (segs : List SegInfo) : UInt64 := ((segs.filter (·.region = r)).map (·.allocSize)).sum

variable {r : Region} {s : SegInfo}

theorem regionSize_cons_self (h : s.region = r) (l : List SegInfo) : regionSize r (s :: l) = s.allocSize + regionSize r l := by
  unfold regionSize
  rw [List.filter_cons_of_pos (by simpa using h), List.map_cons, List.sum_cons]

theorem regionSize_cons_other (h : s.region ≠ r) (l : List SegInfo) : regionSize r (s :: l) = regionSize r l := by
  unfold regionSize
  rw [List.filter_cons_of_neg (by simpa using h)]

theorem regionSize_other {l : List SegInfo} (h : ∀ s ∈ l, s.region ≠ r) : regionSize r l = 0 := by
  unfold regionSize
  rw [List.filter_eq_nil_iff.mpr fun s hs => by simpa using h s hs]
  rfl

/-- A segment goes to its region's base, past what the cursor had there and the segments before it. -/
theorem placeSegs_vmaddr {R : Regions} : ∀ {l before after : List SegInfo} {c : Cursors} {s : SegInfo},
    (placeSegs R c l).2 = before ++ s :: after →
    s.cacheVmaddr = regionBase s.region + (c.get s.region + regionSize s.region before) := by
  intro l
  induction l with
  | nil => intro before after c s h; simp [placeSegs] at h
  | cons t l ih =>
    intro before after c s h
    cases before with
    | nil =>
      obtain ⟨rfl, -⟩ := List.cons.inj h
      show _ = regionBase t.region + (c.get t.region + 0)
      rw [UInt64.add_zero]
    | cons b before =>
      obtain ⟨hb, hrest⟩ := List.cons.inj h
      have hregion : t.region = b.region := by rw [← hb]; rfl
      have hsize : t.allocSize = b.allocSize := by rw [← hb]; rfl
      rw [ih hrest, get_advance, hregion, hsize]
      by_cases hr : b.region = s.region
      · rw [if_pos hr, regionSize_cons_self hr, UInt64.add_assoc]
      · rw [if_neg hr, regionSize_cons_other hr]

theorem placeDylibs_placed {R : Regions} : ∀ {ds : List DylibInfo} {c : Cursors} {d : DylibInfo}, d ∈ placeDylibs R c ds →
    ∃ c' l, d.segs = (placeSegs R c' l).2 := by
  intro ds
  induction ds with
  | nil => intro c d h; cases h
  | cons e ds ih =>
    intro c d h
    rcases List.mem_cons.mp h with rfl | h
    · exact ⟨_, _, rfl⟩
    · exact ih h

/-! ## Where a rewritten displacement leads -/

section

variable (d : DylibInfo) (buf : Mem) (field : Nat) (trailingImm : UInt32)

/-- What an instruction of the dylib addresses through the displacement that `buf` has at `field`,
    if `trailingImm` bytes follow it: in the dylib as it was linked, and in the cache. -/
def originalTarget : UInt64 :=
  riprelTarget (d.textSeg.origVmaddr + (UInt64.ofNat field - d.textSeg.cacheFileOff)) (read32 buf field) trailingImm

def cacheTarget : UInt64 :=
  riprelTarget (d.textSeg.cacheVmaddr + (UInt64.ofNat field - d.textSeg.cacheFileOff)) (read32 buf field) trailingImm

end

/-- Wherever in the DATA segments an instruction led, it leads there still. -/
def Follows (d : DylibInfo) (original buf : Mem) (field : Nat) (trailingImm : UInt32) : Prop :=
  ∀ s ∈ d.segs, s.isData → ∀ o < s.vmsize, originalTarget d original field trailingImm = s.origVmaddr + o →
    cacheTarget d buf field trailingImm = s.cacheVmaddr + o

/-- The `i`-th segment stands where the DATA segments before it end, if they are laid end to end in
    whole pages from the first of them on. -/
def InLine (d : DylibInfo) (i : Nat) : Prop :=
  ∀ s ∈ d.segs[i]?, ∀ first ∈ d.firstData, s.origVmaddr = first.origVmaddr + regionSize .data (d.segs.take i)

instance (d : DylibInfo) (i : Nat) : Decidable (InLine d i) :=
  inferInstanceAs (Decidable (∀ s ∈ d.segs[i]?, ∀ first ∈ d.firstData, s.origVmaddr = _))

theorem sound_addDisp32Checked {disp newDisp : UInt32} {delta : Int64} (h : addDisp32Checked disp delta = some newDisp) :
    signExtend32 newDisp = signExtend32 disp + delta.toUInt64 := by
  unfold addDisp32Checked at h
  simp only at h
  split at h
  · cases h
  · rename_i hrange
    cases h
    rw [not_or, Int64.lt_iff_toInt_lt, Int64.lt_iff_toInt_lt, show (-2147483648 : Int64).toInt = -2147483648 by decide,
      show (2147483647 : Int64).toInt = 2147483647 by decide] at hrange
    obtain ⟨hlow, hhigh⟩ := hrange
    have hback : (disp.toInt32.toInt64 + delta).toInt32.toInt64 = disp.toInt32.toInt64 + delta := by
      generalize disp.toInt32.toInt64 + delta = adjusted at *
      apply Int64.toInt_inj.mp
      rw [Int32.toInt_toInt64, Int64.toInt_toInt32, Int.bmod]
      split <;> omega
    unfold signExtend32
    rw [Int32.toInt32_toUInt32, hback, Int64.toUInt64_add]

/-- The first DATA segment's slide moves every target. -/
theorem cacheTarget_eq {d : DylibInfo} {original buf : Mem} {field : Nat} {first : SegInfo} (hfirst : d.firstData = some first)
    (hadd : addDisp32Checked (read32 original field) (getCodeToDataDelta d) = some (read32 buf field)) (trailingImm : UInt32) :
    cacheTarget d buf field trailingImm = originalTarget d original field trailingImm + first.slide := by
  have hdelta : (getCodeToDataDelta d).toUInt64 = first.slide - d.textSeg.slide := by
    rw [getCodeToDataDelta, hfirst]
    simp [Int64.toUInt64_sub]
  have hsum := sound_addDisp32Checked hadd
  rw [hdelta] at hsum
  unfold cacheTarget originalTarget riprelTarget
  rw [hsum]
  unfold SegInfo.slide
  grind

/-- The DATA segments move alike as far as they were in line. -/
theorem slide_eq_iff {ds : List DylibInfo} {d : DylibInfo} (hd : d ∈ (assignAddresses ds).2) {first : SegInfo}
    (hfirst : d.firstData = some first) {i : Nat} (hs : d.segs[i]? = some s) (hdata : s.isData) :
    s.slide = first.slide ↔ InLine d i := by
  obtain ⟨c, l, hl⟩ := placeDylibs_placed hd
  obtain ⟨hfdata, before, after, hsplit, hnone⟩ := List.find?_eq_some_iff_append.mp hfirst
  have hsr : s.region = .data := of_decide_eq_true hdata
  have hfr : first.region = .data := of_decide_eq_true hfdata
  have hat : d.segs = d.segs.take i ++ s :: d.segs.drop (i + 1) := by
    obtain ⟨hlt, rfl⟩ := List.getElem?_eq_some_iff.mp hs
    rw [← List.drop_eq_getElem_cons hlt, List.take_append_drop]
  have hsaddr := placeSegs_vmaddr (hl.symm.trans hat)
  have hfaddr := placeSegs_vmaddr (hl.symm.trans hsplit)
  have hzero : regionSize .data before = 0 := regionSize_other fun t ht => by simpa [SegInfo.isData] using hnone t ht
  rw [hsr] at hsaddr
  rw [hfr, hzero] at hfaddr
  unfold InLine SegInfo.slide
  rw [hsaddr, hfaddr, hfirst, hs]
  simp only [Option.mem_def, Option.some.injEq, forall_eq']
  constructor <;> intro h <;> grind

/-- A displacement that was rewritten, and overlaps no other that was, follows the data exactly if
    the segment that it leads to was in line. -/
theorem follows_iff (ds : List DylibInfo) (original : Mem) {st : Patched}
    (h : patchCrossSegmentRefs (assignAddresses ds).2 ⟨original, []⟩ = some st) {d : DylibInfo} {field : Nat}
    (hfield : (d, field) ∈ st.rewritten) (halone : Alone st.rewritten field) (trailingImm : UInt32) :
    Follows d original st.buf field trailingImm ↔
      ∀ i s, d.segs[i]? = some s → s.isData →
        (∃ o < s.vmsize, originalTarget d original field trailingImm = s.origVmaddr + o) → InLine d i := by
  have hkept := kept_patchCrossSegmentRefs _ original st h
  obtain ⟨hd, hsome⟩ := hkept.dylib _ hfield
  obtain ⟨first, hfirst⟩ := Option.isSome_iff_exists.mp hsome
  have htarget := cacheTarget_eq hfirst (hkept.added _ hfield halone) trailingImm
  -- where the original leads into a segment, the rewritten one does if the segment moved as the first
  have hfollow : ∀ s : SegInfo, ∀ o, originalTarget d original field trailingImm = s.origVmaddr + o →
      (cacheTarget d st.buf field trailingImm = s.cacheVmaddr + o ↔ s.slide = first.slide) := by
    intro s o ho
    rw [htarget, ho]
    unfold SegInfo.slide
    constructor <;> intro h <;> grind
  constructor
  · rintro hall i s hs hdata ⟨o, hlt, ho⟩
    exact (slide_eq_iff hd hfirst hs hdata).mp ((hfollow s o ho).mp (hall s (List.mem_of_getElem? hs) hdata o hlt ho))
  · intro hline s hmem hdata o hlt ho
    obtain ⟨i, hs⟩ := List.getElem?_of_mem hmem
    have hslide := (slide_eq_iff hd hfirst hs hdata).mpr (hline i s hs hdata ⟨o, hlt, ho⟩)
    exact (hfollow s o ho).mpr hslide

/-- A dylib with a `mov` from offset 0x10 of its second DATA segment, which is at `dataAddr`. -/
def twoDataSegments (dataAddr : UInt64) : List LoadCommand :=
  [.idDylib (cstr "/t"), .segment ⟨segText, 0, 0x1000, 0, 0x1000, 5, [⟨cstr "__text", 0x800, 7, 0, 0⟩]⟩,
    .segment ⟨cstr "__DATA_CONST", 0x1000, 0x1000, 0x1000, 0x1000, 3, []⟩,
    .segment ⟨cstr "__DATA", dataAddr, 0x1000, 0x2000, 0x1000, 3, []⟩]

def loadedTwo (dataAddr : UInt64) : List DylibInfo := (loadDylib (twoDataSegments dataAddr) []).toList

/-- The buffer after `copy_segments`, around the instruction: `movq disp(%rip), %rax`. -/
def movBuffer (disp : UInt32) : Mem := fun x =>
  if x = 0x1800 then 0x48 else if x = 0x1801 then 0x8b else if x = 0x1802 then 0x05
  else writeLE 4 (fun _ => 0) 0x1803 disp.toNat x

def patchedTwo (dataAddr : UInt64) (disp : UInt32) : Option Patched :=
  patchCrossSegmentRefs (assignAddresses (loadedTwo dataAddr)).2 ⟨movBuffer disp, []⟩

/-- The only displacement is rewritten, by what separates DATA from TEXT in the cache less the page
    of TEXT that did in the dylib. -/
theorem patchedTwo_eq {dataAddr : UInt64} {disp newDisp : UInt32}
    (h : (patchedTwo dataAddr disp).map (fun st => (st.rewritten, read32 st.buf 0x1803)) =
      some ((assignAddresses (loadedTwo dataAddr)).2.map fun d => (d, 0x1803), newDisp)) :
    ∃ st, patchedTwo dataAddr disp = some st ∧
      st.rewritten = (assignAddresses (loadedTwo dataAddr)).2.map (fun d => (d, 0x1803)) ∧ read32 st.buf 0x1803 = newDisp := by
  obtain ⟨st, hst, heq⟩ := Option.map_eq_some_iff.mp h
  exact ⟨st, hst, Prod.mk.inj heq⟩

theorem follows_iff_end_to_end : ∃ st d, patchedTwo 0x2000 0x1809 = some st ∧ (d, 0x1803) ∈ st.rewritten ∧
    Follows d (movBuffer 0x1809) st.buf 0x1803 0 := by
  obtain ⟨st, hst, hrewritten, -⟩ := @patchedTwo_eq 0x2000 0x1809 0x60000809 (by decide)
  obtain ⟨d, hd, hlen, hline⟩ : ∃ d ∈ (assignAddresses (loadedTwo 0x2000)).2, d.segs.length = 3 ∧
      ∀ i < 3, ∀ s ∈ d.segs[i]?, s.isData = true → InLine d i := by
    decide
  have hmem : (d, 0x1803) ∈ st.rewritten := hrewritten ▸ List.mem_map_of_mem hd
  have halone : Alone ((assignAddresses (loadedTwo 0x2000)).2.map fun d => (d, 0x1803)) 0x1803 := by decide
  refine ⟨st, d, hst, hmem, (follows_iff (loadedTwo 0x2000) (movBuffer 0x1809) hst hmem (hrewritten ▸ halone) 0).mpr ?_⟩
  intro i s hs hdata _
  exact hline i (hlen ▸ (List.getElem?_eq_some_iff.mp hs).1) s hs hdata

/-- The data has moved up to the segment before it, the displacement has not. -/
theorem reference_past_a_gap : ∃ st d, patchedTwo 0x4000 0x3809 = some st ∧ (d, 0x1803) ∈ st.rewritten ∧
    Alone st.rewritten 0x1803 ∧ ¬ Follows d (movBuffer 0x3809) st.buf 0x1803 0 := by
  obtain ⟨st, hst, hrewritten, hread⟩ := @patchedTwo_eq 0x4000 0x3809 0x60002809 (by decide)
  obtain ⟨d, hd, s, hs, hdata, hlt, hleads, hmisses⟩ : ∃ d ∈ (assignAddresses (loadedTwo 0x4000)).2, ∃ s ∈ d.segs, s.isData = true ∧
      0x10 < s.vmsize ∧ originalTarget d (movBuffer 0x3809) 0x1803 0 = s.origVmaddr + 0x10 ∧
      riprelTarget (d.textSeg.cacheVmaddr + (0x1803 - d.textSeg.cacheFileOff)) 0x60002809 0 ≠ s.cacheVmaddr + 0x10 := by
    decide
  have halone : Alone ((assignAddresses (loadedTwo 0x4000)).2.map fun d => (d, 0x1803)) 0x1803 := by decide
  refine ⟨st, d, hst, hrewritten ▸ List.mem_map_of_mem hd, hrewritten ▸ halone, fun hfollows => hmisses ?_⟩
  have hnew := hfollows s hs hdata 0x10 hlt hleads
  rw [cacheTarget, hread] at hnew
  exact hnew

end Panthera.Cache
