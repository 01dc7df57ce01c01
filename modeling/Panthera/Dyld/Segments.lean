/-
  Panthera.Dyld.Segments — the two ways in which `loadImage` fills the memory of an image.

  A small file is read whole and its segments are copied from there. Of a large file only the
  load commands are read; whole pages of its segments are mapped, what is left of a segment
  (its tail) is copied from what has been read or read on its own, and the rest of the last
  page is cleared. `fromFile` does either, by the file's size (`fromFile_builds`).

  Both leave the same image of a well-formed dylib (`segments_agree`). Mapping whole pages of a
  file is taken to give the file's bytes.
-/

import Panthera.Lib.Pages
import Panthera.Lib.Run
import Panthera.Dyld.Load

namespace Panthera.Dyld.Segments

open MachO Lib.Bytes Lib.Pages

/-! ## Filling an image -/

/-- `len` bytes from `off` on. -/
def range (bytes : List UInt8) (off len : UInt64) : List UInt8 := (bytes.drop off.toNat).take len.toNat

/-- The whole pages of a segment, mapped over the memory that was reserved. -/
def mapPages (f : File) (want : UInt64) (seg : Segment) (m : Mem) : Option Mem :=
  let fullFilePages := seg.filesize &&& ~~~(0xFFF : UInt64)
  if 0 < fullFilePages then
    if f.mapOk seg.fileoff then some (writeBytes m want (range f.contents seg.fileoff fullFilePages)) else none
  else some m

/-- The bytes after the whole pages, from the snapshot if they are in it. -/
def copyTail (f : File) (snapshot : List UInt8) (want : UInt64) (seg : Segment) (m : Mem) : Option Mem :=
  let fullFilePages := seg.filesize &&& ~~~(0xFFF : UInt64)
  let tailSize := seg.filesize - fullFilePages
  let tailFileOffset := seg.fileoff + fullFilePages
  if 0 < tailSize then
    if (tailFileOffset + tailSize).toNat ≤ snapshot.length then
      some (writeBytes m (want + fullFilePages) (range snapshot tailFileOffset tailSize))
    else if f.readOk tailFileOffset.toNat tailSize.toNat then
      some (writeBytes m (want + fullFilePages) (range f.contents tailFileOffset tailSize))
    else none
  else some m

/-- The last page after the segment's bytes, as far as the segment goes. -/
def clearRest (base segOffset : UInt64) (seg : Segment) (m : Mem) : Mem :=
  let zeroStart := segOffset + seg.filesize
  let pageEnd := (zeroStart + 0xFFF) &&& ~~~(0xFFF : UInt64)
  let segEnd := segOffset + seg.vmsize
  let zeroEnd := if segEnd < pageEnd then segEnd else pageEnd
  if zeroStart < zeroEnd then zeroBytes m (base + zeroStart) (zeroEnd - zeroStart) else m

def mapSegment (f : File) (snapshot : List UInt8) (base lo : UInt64) (seg : Segment) (m : Mem) : Option Mem :=
  let segOffset := seg.vmaddr - lo
  if seg.fileoff &&& 0xFFF ≠ 0 ∨ segOffset &&& 0xFFF ≠ 0 then none
  else do
    let m ← mapPages f (base + segOffset) seg m
    let m ← copyTail f snapshot (base + segOffset) seg m
    some (clearRest base segOffset seg m)

/-- One turn of the loop over the segments. -/
def loadSegment (f : File) (useFileSegmentMapping : Bool) (snapshot : List UInt8) (base lo : UInt64) (m : Mem) (seg : Segment) :
    Option Mem :=
  if 0 < seg.filesize then
    if useFileSegmentMapping then mapSegment f snapshot base lo seg m
    else some (writeBytes m (base + (seg.vmaddr - lo)) (range snapshot seg.fileoff seg.filesize))
  else some m

/-- How much of the file the snapshot holds. -/
def snapshotReadSize (f : File) (useFileSegmentMapping : Bool) : Nat :=
  let size := f.size.toNat
  let snapshotSize := if useFileSegmentMapping then min (64 * 1024) size else size
  let readSize := if useFileSegmentMapping then min 4096 snapshotSize else snapshotSize
  max readSize (32 + f.sizeofcmds.toNat)

/-- The image at `base`, in memory that has just been reserved for it. -/
def buildImage (f : File) (useFileSegmentMapping : Bool) (base : UInt64) (m : Mem) : Option Mem :=
  (segmentsOf f.commands).foldlM
    (loadSegment f useFileSegmentMapping (f.contents.take (snapshotReadSize f useFileSegmentMapping)) base (vmRange f.commands).1)
    (zeroBytes m base (totalSize f.commands))

/-! ## Well-formed dylibs -/

/-- How far a segment is into its image. -/
def offsetOf (f : File) (seg : Segment) : Nat := (seg.vmaddr - (vmRange f.commands).1).toNat

structure WellFormed (f : File) : Prop where
  size : f.size = f.contents.length
  /-- The size is an `off_t`. -/
  small : f.contents.length < 2 ^ 63
  commands : 32 + f.sizeofcmds.toNat ≤ f.contents.length ∧ 32 + f.sizeofcmds.toNat ≤ 64 * 1024
  aligned : ∀ seg ∈ segmentsOf f.commands, seg.vmaddr.toNat % 4096 = 0 ∧ seg.fileoff.toNat % 4096 = 0
  sized : ∀ seg ∈ segmentsOf f.commands, seg.filesize.toNat ≤ seg.vmsize.toNat
  inFile : ∀ seg ∈ segmentsOf f.commands, seg.fileoff.toNat + seg.filesize.toNat ≤ f.contents.length
  below : ∀ seg ∈ segmentsOf f.commands, seg.vmaddr.toNat + seg.vmsize.toNat < 2 ^ 64
  /-- No address is in two segments. -/
  apart : (segmentsOf f.commands).Pairwise fun a b => ∀ x, a.vmaddr.toNat ≤ x → x < a.vmaddr.toNat + a.vmsize.toNat →
    x < b.vmaddr.toNat ∨ b.vmaddr.toNat + b.vmsize.toNat ≤ x

/-- What is reserved at `base` is below the last address. -/
def Room (f : File) (base : UInt64) : Prop :=
  base.toNat + ((vmRange f.commands).2 - (vmRange f.commands).1).toNat + 0xFFF < 2 ^ 64

/-- Each segment's bytes of the file, zeros up to its size, and zeros in the gaps. -/
structure HoldsImage (f : File) (base : UInt64) (m : Mem) : Prop where
  segment : ∀ seg ∈ segmentsOf f.commands, ∀ x < seg.vmsize.toNat, m (base.toNat + offsetOf f seg + x) =
    if x < seg.filesize.toNat then f.contents.getD (seg.fileoff.toNat + x) 0 else 0
  gaps : ∀ x < (totalSize f.commands).toNat, (∀ seg ∈ segmentsOf f.commands, x < offsetOf f seg ∨
    offsetOf f seg + seg.vmsize.toNat ≤ x) → m (base.toNat + x) = 0

variable {f : File} {base : UInt64} {seg : Segment}

/-- One image in two places. -/
theorem HoldsImage.unique {base' : UInt64} {m m' : Mem} (h : HoldsImage f base m) (h' : HoldsImage f base' m') :
    ∀ x < (totalSize f.commands).toNat, m (base.toNat + x) = m' (base'.toNat + x) := by
  intro x hx
  by_cases hseg : ∃ seg ∈ segmentsOf f.commands, offsetOf f seg ≤ x ∧ x < offsetOf f seg + seg.vmsize.toNat
  · obtain ⟨seg, hseg, hlo, hhi⟩ := hseg
    obtain ⟨y, rfl⟩ := Nat.exists_eq_add_of_le hlo
    rw [← Nat.add_assoc, ← Nat.add_assoc, h.segment seg hseg y (by omega), h'.segment seg hseg y (by omega)]
  · have hgap : ∀ seg ∈ segmentsOf f.commands, x < offsetOf f seg ∨ offsetOf f seg + seg.vmsize.toNat ≤ x := by
      intro seg hmem
      by_contra hno
      exact hseg ⟨seg, hmem, by omega, by omega⟩
    rw [h.gaps x hx hgap, h'.gaps x hx hgap]

/-! ## Where segments go -/

/-- One turn of `vmRange`. -/
def widen (r : UInt64 × UInt64) (seg : Segment) : UInt64 × UInt64 :=
  if 0 < seg.vmsize then
    (if seg.vmaddr < r.1 then seg.vmaddr else r.1, if r.2 < seg.vmaddr + seg.vmsize then seg.vmaddr + seg.vmsize else r.2)
  else r

theorem widen_bounds (r : UInt64 × UInt64) (hbelow : seg.vmaddr.toNat + seg.vmsize.toNat < 2 ^ 64) :
    (widen r seg).1.toNat ≤ r.1.toNat ∧ r.2.toNat ≤ (widen r seg).2.toNat ∧
      (0 < seg.vmsize.toNat → (widen r seg).1.toNat ≤ seg.vmaddr.toNat ∧
        seg.vmaddr.toNat + seg.vmsize.toNat ≤ (widen r seg).2.toNat) ∧
      ((widen r seg).1 = r.1 ∨ 0 < seg.vmsize.toNat ∧ (widen r seg).1 = seg.vmaddr) := by
  have hend : (seg.vmaddr + seg.vmsize).toNat = seg.vmaddr.toNat + seg.vmsize.toNat := by
    rw [UInt64.toNat_add]
    omega
  have hpos : (0 : UInt64) < seg.vmsize ↔ 0 < seg.vmsize.toNat := UInt64.lt_iff_toNat_lt
  unfold widen
  by_cases hv : 0 < seg.vmsize
  · have hv' := hpos.mp hv
    rw [if_pos hv]
    dsimp only
    have hlo : (if seg.vmaddr < r.1 then seg.vmaddr else r.1).toNat = min seg.vmaddr.toNat r.1.toNat := by
      split
      · rename_i h
        rw [UInt64.lt_iff_toNat_lt] at h
        omega
      · rename_i h
        rw [UInt64.lt_iff_toNat_lt] at h
        omega
    have hhi : (if r.2 < seg.vmaddr + seg.vmsize then seg.vmaddr + seg.vmsize else r.2).toNat =
        max r.2.toNat (seg.vmaddr.toNat + seg.vmsize.toNat) := by
      split
      · rename_i h
        rw [UInt64.lt_iff_toNat_lt, hend] at h
        omega
      · rename_i h
        rw [UInt64.lt_iff_toNat_lt, hend] at h
        omega
    rw [hlo, hhi]
    refine ⟨by omega, by omega, fun _ => ⟨by omega, by omega⟩, ?_⟩
    split
    · exact .inr ⟨hv', rfl⟩
    · exact .inl rfl
  · rw [if_neg hv]
    rw [hpos] at hv
    exact ⟨Nat.le_refl _, Nat.le_refl _, fun h => absurd h hv, .inl rfl⟩

/-- The bounds enclose every segment, and the lower one is where a segment starts. -/
theorem foldl_widen {segs : List Segment} (hbelow : ∀ seg ∈ segs, seg.vmaddr.toNat + seg.vmsize.toNat < 2 ^ 64) :
    ∀ r : UInt64 × UInt64, (segs.foldl widen r).1.toNat ≤ r.1.toNat ∧ r.2.toNat ≤ (segs.foldl widen r).2.toNat ∧
      (∀ seg ∈ segs, 0 < seg.vmsize.toNat → (segs.foldl widen r).1.toNat ≤ seg.vmaddr.toNat ∧
        seg.vmaddr.toNat + seg.vmsize.toNat ≤ (segs.foldl widen r).2.toNat) ∧
      ((segs.foldl widen r).1 = r.1 ∨ ∃ seg ∈ segs, 0 < seg.vmsize.toNat ∧ (segs.foldl widen r).1 = seg.vmaddr) := by
  induction segs with
  | nil => exact fun r => ⟨Nat.le_refl _, Nat.le_refl _, by simp, .inl rfl⟩
  | cons seg segs ih =>
    intro r
    obtain ⟨h1, h2, h3, h4⟩ := widen_bounds r (hbelow seg List.mem_cons_self)
    obtain ⟨i1, i2, i3, i4⟩ := ih (fun s hs => hbelow s (List.mem_cons_of_mem _ hs)) (widen r seg)
    rw [List.foldl_cons]
    refine ⟨i1.trans h1, h2.trans i2, ?_, ?_⟩
    · intro s hs hpos
      rcases List.mem_cons.mp hs with rfl | hs
      · have := h3 hpos
        exact ⟨i1.trans this.1, this.2.trans i2⟩
      · exact i3 s hs hpos
    · rcases i4 with i4 | ⟨s, hs, hs'⟩
      · rcases h4 with h4 | h4
        · exact .inl (i4.trans h4)
        · exact .inr ⟨seg, List.mem_cons_self, h4.1, i4.trans h4.2⟩
      · exact .inr ⟨s, List.mem_cons_of_mem _ hs, hs'⟩

section Places

variable {f : File} {base : UInt64} (hw : WellFormed f) {seg : Segment} (hseg : seg ∈ segmentsOf f.commands)
  (hpos : 0 < seg.vmsize.toNat)

include hw hseg hpos

theorem WellFormed.bounds :
    (vmRange f.commands).1.toNat ≤ seg.vmaddr.toNat ∧
      seg.vmaddr.toNat + seg.vmsize.toNat ≤ (vmRange f.commands).2.toNat ∧ (vmRange f.commands).1.toNat % 4096 = 0 := by
  have heq : vmRange f.commands = (segmentsOf f.commands).foldl widen (0xFFFFFFFFFFFFFFFF, 0) := rfl
  obtain ⟨-, -, h3, h4⟩ := foldl_widen hw.below (0xFFFFFFFFFFFFFFFF, 0)
  rw [← heq] at h3 h4
  have hin := h3 seg hseg hpos
  refine ⟨hin.1, hin.2, ?_⟩
  rcases h4 with h4 | ⟨s, hs, -, hs'⟩
  · -- then the segment would start at the last address
    have hbelow := hw.below seg hseg
    have hlast : (vmRange f.commands).1.toNat = 0xFFFFFFFFFFFFFFFF := by rw [h4]; rfl
    omega
  · rw [hs']
    exact (hw.aligned s hs).1

theorem WellFormed.offset_eq : offsetOf f seg = seg.vmaddr.toNat - (vmRange f.commands).1.toNat := by
  have := hw.bounds hseg hpos
  have := seg.vmaddr.toNat_lt
  rw [offsetOf, UInt64.toNat_sub]
  omega

theorem WellFormed.span : offsetOf f seg + seg.vmsize.toNat ≤ ((vmRange f.commands).2 - (vmRange f.commands).1).toNat := by
  have hb := hw.bounds hseg hpos
  have h2 := (vmRange f.commands).2.toNat_lt
  rw [hw.offset_eq hseg hpos, UInt64.toNat_sub]
  omega

theorem Room.addr_eq (hroom : Room f base) : (base + (seg.vmaddr - (vmRange f.commands).1)).toNat = base.toNat + offsetOf f seg := by
  have := hw.span hseg hpos
  unfold Room at hroom
  rw [UInt64.toNat_add]
  show (base.toNat + offsetOf f seg) % 2 ^ 64 = _
  omega

end Places

/-! ## One segment -/

/-- A segment's bytes are at `a`, the rest of it is clear if it was, and nothing else has changed. -/
structure Placed (f : File) (a : Nat) (seg : Segment) (m m' : Mem) : Prop where
  bytes : ∀ x < seg.filesize.toNat, m' (a + x) = f.contents.getD (seg.fileoff.toNat + x) 0
  rest : ∀ x, seg.filesize.toNat ≤ x → x < seg.vmsize.toNat → m (a + x) = 0 → m' (a + x) = 0
  outside : ∀ y, y < a ∨ a + seg.vmsize.toNat ≤ y → m' y = m y

theorem writeBytes_range (m : Mem) (a : UInt64) {bytes : List UInt8} {off len : UInt64} (h : off.toNat + len.toNat ≤ bytes.length) (y : Nat) :
    writeBytes m a (range bytes off len) y =
      if a.toNat ≤ y ∧ y < a.toNat + len.toNat then bytes.getD (off.toNat + (y - a.toNat)) 0 else m y := by
  have hlen : (range bytes off len).length = len.toNat := by
    rw [range, List.length_take, List.length_drop]
    omega
  rw [writeBytes, hlen]
  split
  · rename_i hy
    rw [range, List.getD, List.getD, List.getElem?_take_of_lt (by omega), List.getElem?_drop]
  · rfl

theorem copy_placed {a : UInt64} (hsized : seg.filesize.toNat ≤ seg.vmsize.toNat)
    {snapshot : List UInt8} (hsnap : ∀ x < seg.filesize.toNat,
      snapshot.getD (seg.fileoff.toNat + x) 0 = f.contents.getD (seg.fileoff.toNat + x) 0)
    (hlen : seg.fileoff.toNat + seg.filesize.toNat ≤ snapshot.length) (m : Mem) :
    Placed f a.toNat seg m (writeBytes m a (range snapshot seg.fileoff seg.filesize)) := by
  have hwrite := writeBytes_range m a hlen
  refine ⟨fun x hx => ?_, fun x hlo _ hm => ?_, fun y hy => ?_⟩
  · rw [hwrite, if_pos (by omega), Nat.add_sub_cancel_left, hsnap x hx]
  · rw [hwrite, if_neg (by omega), hm]
  · rw [hwrite, if_neg (by omega)]

/-- The whole pages of so many bytes. -/
theorem toNat_fullPages (x : UInt64) : (x &&& ~~~(0xFFF : UInt64)).toNat = x.toNat / 4096 * 4096 := toNat_and_pageMask x

theorem fullPages_le (n : Nat) : n / 4096 * 4096 ≤ n := Nat.div_mul_le_self n 4096

theorem mapPages_spec (want : UInt64) (hmap : f.mapOk seg.fileoff = true)
    (hin : seg.fileoff.toNat + seg.filesize.toNat ≤ f.contents.length) (m : Mem) : ∃ m', mapPages f want seg m = some m' ∧
      ∀ y, m' y = if want.toNat ≤ y ∧ y < want.toNat + seg.filesize.toNat / 4096 * 4096 then
        f.contents.getD (seg.fileoff.toNat + (y - want.toNat)) 0 else m y := by
  have hfull := toNat_fullPages seg.filesize
  have hle := fullPages_le seg.filesize.toNat
  unfold mapPages
  dsimp only
  by_cases hpos : 0 < seg.filesize &&& ~~~(0xFFF : UInt64)
  · rw [if_pos hpos, if_pos hmap]
    refine ⟨_, rfl, fun y => ?_⟩
    rw [writeBytes_range m want (by omega), hfull]
  · rw [if_neg hpos]
    rw [UInt64.lt_iff_toNat_lt, hfull, UInt64.toNat_zero] at hpos
    exact ⟨m, rfl, fun y => (if_neg (by omega)).symm⟩

theorem copyTail_spec (n : Nat) (want : UInt64) (hread : ∀ off len, f.readOk off len = true) (hsmall : f.contents.length < 2 ^ 63)
    (hin : seg.fileoff.toNat + seg.filesize.toNat ≤ f.contents.length)
    (hwant : want.toNat + seg.filesize.toNat < 2 ^ 64) (m : Mem) : ∃ m', copyTail f (f.contents.take n) want seg m = some m' ∧
      ∀ y, m' y = if want.toNat + seg.filesize.toNat / 4096 * 4096 ≤ y ∧ y < want.toNat + seg.filesize.toNat then
        f.contents.getD (seg.fileoff.toNat + (y - want.toNat)) 0 else m y := by
  have hfull := toNat_fullPages seg.filesize
  have hle := fullPages_le seg.filesize.toNat
  unfold copyTail
  dsimp only
  generalize seg.filesize &&& ~~~(0xFFF : UInt64) = full at hfull ⊢
  have htail : (seg.filesize - full).toNat = seg.filesize.toNat - seg.filesize.toNat / 4096 * 4096 := by
    rw [UInt64.toNat_sub_of_le _ _ (UInt64.le_iff_toNat_le.mpr (by omega)), hfull]
  have hoff : (seg.fileoff + full).toNat = seg.fileoff.toNat + seg.filesize.toNat / 4096 * 4096 := by
    rw [UInt64.toNat_add, hfull]
    omega
  have htarget : (want + full).toNat = want.toNat + seg.filesize.toNat / 4096 * 4096 := by
    rw [UInt64.toNat_add, hfull]
    omega
  generalize seg.filesize - full = tail at htail ⊢
  generalize seg.fileoff + full = off at hoff ⊢
  generalize want + full = target at htarget ⊢
  -- both sources of the tail hold the file's bytes
  have hwrite : ∀ bytes : List UInt8, off.toNat + tail.toNat ≤ bytes.length →
      (∀ x < off.toNat + tail.toNat, bytes.getD x 0 = f.contents.getD x 0) → ∀ y, writeBytes m target (range bytes off tail) y =
        if want.toNat + seg.filesize.toNat / 4096 * 4096 ≤ y ∧ y < want.toNat + seg.filesize.toNat then
          f.contents.getD (seg.fileoff.toNat + (y - want.toNat)) 0 else m y := by
    intro bytes hlen hsame y
    rw [writeBytes_range m target hlen]
    by_cases hy : want.toNat + seg.filesize.toNat / 4096 * 4096 ≤ y ∧ y < want.toNat + seg.filesize.toNat
    · rw [if_pos hy, if_pos (by omega), hsame _ (by omega)]
      congr 1
      omega
    · rw [if_neg hy, if_neg (by omega)]
  by_cases hpos : 0 < tail
  · rw [if_pos hpos]
    by_cases hsnap : (off + tail).toNat ≤ (f.contents.take n).length
    · rw [if_pos hsnap]
      have hsum : (off + tail).toNat = off.toNat + tail.toNat := by
        rw [UInt64.toNat_add]
        omega
      refine ⟨_, rfl, hwrite _ (by omega) fun x hx => ?_⟩
      have hn : x < n := by
        rw [List.length_take] at hsnap
        omega
      rw [List.getD, List.getD, List.getElem?_take_of_lt hn]
    · rw [if_neg hsnap, if_pos (hread _ _)]
      exact ⟨_, rfl, hwrite _ (by omega) fun _ _ => rfl⟩
  · rw [if_neg hpos]
    rw [UInt64.lt_iff_toNat_lt, htail, UInt64.toNat_zero] at hpos
    exact ⟨m, rfl, fun y => (if_neg (by omega)).symm⟩

theorem clearRest_spec (base segOffset : UInt64) (hsized : seg.filesize.toNat ≤ seg.vmsize.toNat)
    (hroom : base.toNat + segOffset.toNat + seg.vmsize.toNat + 0xFFF < 2 ^ 64) (m : Mem) (y : Nat) :
    clearRest base segOffset seg m y = m y ∨ clearRest base segOffset seg m y = 0 ∧
      base.toNat + segOffset.toNat + seg.filesize.toNat ≤ y ∧ y < base.toNat + segOffset.toNat + seg.vmsize.toNat := by
  have hstart : (segOffset + seg.filesize).toNat = segOffset.toNat + seg.filesize.toNat := by
    rw [UInt64.toNat_add]
    omega
  have hend : (segOffset + seg.vmsize).toNat = segOffset.toNat + seg.vmsize.toNat := by
    rw [UInt64.toNat_add]
    omega
  unfold clearRest
  generalize (segOffset + seg.filesize + 0xFFF) &&& ~~~(0xFFF : UInt64) = pageEnd
  have hle : (if segOffset + seg.vmsize < pageEnd then segOffset + seg.vmsize else pageEnd).toNat ≤
      segOffset.toNat + seg.vmsize.toNat := by
    split
    · exact hend.le
    · rename_i hle
      rw [UInt64.lt_iff_toNat_lt, hend] at hle
      omega
  generalize (if segOffset + seg.vmsize < pageEnd then segOffset + seg.vmsize else pageEnd) = zeroEnd at hle ⊢
  split
  · rename_i hlt
    rw [UInt64.lt_iff_toNat_lt, hstart] at hlt
    have hlen : (zeroEnd - (segOffset + seg.filesize)).toNat = zeroEnd.toNat - (segOffset.toNat + seg.filesize.toNat) := by
      rw [UInt64.toNat_sub_of_le _ _ (UInt64.le_iff_toNat_le.mpr (by omega)), hstart]
    have haddr : (base + (segOffset + seg.filesize)).toNat = base.toNat + segOffset.toNat + seg.filesize.toNat := by
      rw [UInt64.toNat_add, hstart]
      omega
    unfold zeroBytes
    rw [hlen, haddr]
    split
    · exact .inr ⟨rfl, by omega, by omega⟩
    · exact .inl rfl
  · exact .inl rfl

theorem and_pageMask_eq_zero {x : UInt64} (h : x.toNat % 4096 = 0) : x &&& 0xFFF = 0 := by
  apply UInt64.toNat_inj.mp
  rw [UInt64.toNat_and, show (0xFFF : UInt64).toNat = 2 ^ 12 - 1 from rfl, Nat.and_two_pow_sub_one_eq_mod, h]
  rfl

/-- A small file is in the snapshot as a whole. -/
theorem WellFormed.snapshot_small (hw : WellFormed f) : f.contents.take (snapshotReadSize f false) = f.contents := by
  refine List.take_of_length_le ?_
  have := hw.size
  simp only [snapshotReadSize, Bool.false_eq_true, if_false]
  omega

section Image

variable {f : File} (hw : WellFormed f) (hread : ∀ off len, f.readOk off len = true) (hmap : ∀ off, f.mapOk off = true)
  {base : UInt64} (hroom : Room f base)
include hw hread hmap hroom

theorem mapSegment_placed (hseg : seg ∈ segmentsOf f.commands) (hpos : 0 < seg.filesize.toNat) (n : Nat) (m : Mem) :
    ∃ m', mapSegment f (f.contents.take n) base (vmRange f.commands).1 seg m = some m' ∧
      Placed f (base.toNat + offsetOf f seg) seg m m' := by
  have hsized := hw.sized seg hseg
  have hvm : 0 < seg.vmsize.toNat := by omega
  have haddr := hroom.addr_eq hw hseg hvm
  have hspan := hw.span hseg hvm
  have halign := hw.aligned seg hseg
  have hle := fullPages_le seg.filesize.toNat
  unfold Room at hroom
  -- a segment is as far from the lowest one as both are aligned
  have hoffset : (seg.vmaddr - (vmRange f.commands).1) &&& 0xFFF = 0 := by
    refine and_pageMask_eq_zero ?_
    show offsetOf f seg % 4096 = 0
    have hb := hw.bounds hseg hvm
    rw [hw.offset_eq hseg hvm]
    omega
  obtain ⟨m1, hm1, h1⟩ := mapPages_spec (base + (seg.vmaddr - (vmRange f.commands).1)) (hmap seg.fileoff) (hw.inFile seg hseg) m
  obtain ⟨m2, hm2, h2⟩ := copyTail_spec n (base + (seg.vmaddr - (vmRange f.commands).1)) hread hw.small
    (hw.inFile seg hseg) (by omega) m1
  have h3 := clearRest_spec base (seg.vmaddr - (vmRange f.commands).1) hsized (by
    show base.toNat + offsetOf f seg + seg.vmsize.toNat + 0xFFF < 2 ^ 64
    omega) m2
  refine ⟨clearRest base (seg.vmaddr - (vmRange f.commands).1) seg m2, ?_, ?_⟩
  · unfold mapSegment
    rw [if_neg (by simp [and_pageMask_eq_zero halign.2, hoffset]), hm1]
    dsimp only [Option.bind_eq_bind, Option.bind_some]
    rw [hm2]
    rfl
  · rw [haddr] at h1 h2
    have h3 : ∀ y, clearRest base (seg.vmaddr - (vmRange f.commands).1) seg m2 y = m2 y ∨
        clearRest base (seg.vmaddr - (vmRange f.commands).1) seg m2 y = 0 ∧
          base.toNat + offsetOf f seg + seg.filesize.toNat ≤ y ∧ y < base.toNat + offsetOf f seg + seg.vmsize.toNat := h3
    refine ⟨fun x hx => ?_, fun x hlo hhi hm => ?_, fun y hy => ?_⟩
    · rw [(h3 _).resolve_right (by omega), h2, h1]
      by_cases htail : seg.filesize.toNat / 4096 * 4096 ≤ x
      · rw [if_pos (by omega), Nat.add_sub_cancel_left]
      · rw [if_neg (by omega), if_pos (by omega), Nat.add_sub_cancel_left]
    · rcases h3 (base.toNat + offsetOf f seg + x) with h | h
      · rw [h, h2, h1, if_neg (by omega), if_neg (by omega), hm]
      · exact h.1
    · rw [(h3 _).resolve_right (by omega), h2, h1, if_neg (by omega), if_neg (by omega)]

theorem loadSegment_placed (useFileSegmentMapping : Bool) (hseg : seg ∈ segmentsOf f.commands) (m : Mem) :
    ∃ m', loadSegment f useFileSegmentMapping (f.contents.take (snapshotReadSize f useFileSegmentMapping)) base
        (vmRange f.commands).1 m seg = some m' ∧ Placed f (base.toNat + offsetOf f seg) seg m m' := by
  unfold loadSegment
  by_cases hpos : 0 < seg.filesize
  · have hpos' : 0 < seg.filesize.toNat := UInt64.lt_iff_toNat_lt.mp hpos
    rw [if_pos hpos]
    cases useFileSegmentMapping with
    | true => exact mapSegment_placed hw hread hmap hroom hseg hpos' _ m
    | false =>
      have hsized := hw.sized seg hseg
      have hin := hw.inFile seg hseg
      rw [hw.snapshot_small, ← hroom.addr_eq hw hseg (by omega)]
      exact ⟨_, rfl, copy_placed hsized (fun _ _ => rfl) hin m⟩
  · rw [if_neg hpos]
    rw [UInt64.lt_iff_toNat_lt, UInt64.toNat_zero] at hpos
    exact ⟨m, rfl, ⟨fun x hx => absurd hx (by omega), fun _ _ _ h => h, fun _ _ => rfl⟩⟩

end Image

/-! ## All segments -/

/-- A loop that places segments in clear memory, no address in two of them. -/
theorem foldlM_placed {a : Segment → Nat} {step : Mem → Segment → Option Mem} : ∀ {segs : List Segment},
    (∀ seg ∈ segs, ∀ m, ∃ m', step m seg = some m' ∧ Placed f (a seg) seg m m') →
    segs.Pairwise (fun s t => ∀ y, a s ≤ y → y < a s + s.vmsize.toNat → y < a t ∨ a t + t.vmsize.toNat ≤ y) →
    (∀ seg ∈ segs, seg.filesize.toNat ≤ seg.vmsize.toNat) → ∀ m : Mem,
    (∀ seg ∈ segs, ∀ x < seg.vmsize.toNat, m (a seg + x) = 0) → ∃ m', segs.foldlM step m = some m' ∧
      (∀ seg ∈ segs, ∀ x < seg.vmsize.toNat, m' (a seg + x) =
        if x < seg.filesize.toNat then f.contents.getD (seg.fileoff.toNat + x) 0 else 0) ∧
      ∀ y, (∀ seg ∈ segs, y < a seg ∨ a seg + seg.vmsize.toNat ≤ y) → m' y = m y := by
  intro segs
  induction segs with
  | nil => exact fun _ _ _ m _ => ⟨m, rfl, by simp, fun _ _ => rfl⟩
  | cons seg segs ih =>
    intro hstep hap hsized m hzero
    obtain ⟨hhead, hap⟩ := List.pairwise_cons.mp hap
    obtain ⟨m1, hm1, hplaced⟩ := hstep seg List.mem_cons_self m
    obtain ⟨m2, hm2, hsegs, hout⟩ := ih (fun s hs => hstep s (List.mem_cons_of_mem _ hs)) hap
      (fun s hs => hsized s (List.mem_cons_of_mem _ hs)) m1 (fun s hs x hx => by
        -- the segments still to come are clear
        have hy : a s + x < a seg ∨ a seg + seg.vmsize.toNat ≤ a s + x := by
          by_contra hno
          have := hhead s hs (a s + x) (by omega) (by omega)
          omega
        rw [hplaced.outside _ hy]
        exact hzero s (List.mem_cons_of_mem _ hs) x hx)
    refine ⟨m2, by rw [List.foldlM_cons, hm1]; exact hm2, ?_, ?_⟩
    · intro s hs x hx
      rcases List.mem_cons.mp hs with rfl | hs
      · rw [hout _ fun t ht => hhead t ht _ (by omega) (by omega)]
        split
        · exact hplaced.bytes x ‹_›
        · exact hplaced.rest x (by omega) hx (hzero s List.mem_cons_self x hx)
      · exact hsegs s hs x hx
    · intro y hy
      rw [hout y fun t ht => hy t (List.mem_cons_of_mem _ ht)]
      exact hplaced.outside y (hy seg List.mem_cons_self)

theorem Room.totalSize_eq (hroom : Room f base) :
    (totalSize f.commands).toNat = roundUp ((vmRange f.commands).2 - (vmRange f.commands).1).toNat := by
  unfold Room at hroom
  refine toNat_roundUp ?_
  omega

/-- The segments lie in memory as they do in the addresses the file gives them. -/
theorem WellFormed.offsets_apart (hw : WellFormed f) (base : Nat) : (segmentsOf f.commands).Pairwise fun s t =>
    ∀ y, base + offsetOf f s ≤ y → y < base + offsetOf f s + s.vmsize.toNat →
      y < base + offsetOf f t ∨ base + offsetOf f t + t.vmsize.toNat ≤ y := by
  refine hw.apart.imp_of_mem fun {s t} hs ht hap y hlo hhi => ?_
  by_cases hpos : 0 < t.vmsize.toNat
  · have hs' := hw.offset_eq hs (by omega)
    have hsb := hw.bounds hs (by omega)
    have ht' := hw.offset_eq ht hpos
    have htb := hw.bounds ht hpos
    have := hap (y - base + (vmRange f.commands).1.toNat) (by omega) (by omega)
    omega
  · omega

section Loader

variable {f : File} (hw : WellFormed f) (hread : ∀ off len, f.readOk off len = true) (hmap : ∀ off, f.mapOk off = true)
include hw hread hmap

theorem buildImage_holds (useFileSegmentMapping : Bool) (hroom : Room f base) (m : Mem) :
    ∃ n, buildImage f useFileSegmentMapping base m = some n ∧ HoldsImage f base n := by
  have hround := le_roundUp ((vmRange f.commands).2 - (vmRange f.commands).1).toNat
  have htotal := hroom.totalSize_eq
  have hzero : ∀ x < (totalSize f.commands).toNat, zeroBytes m base (totalSize f.commands) (base.toNat + x) = 0 := by
    intro x hx
    exact if_pos ⟨by omega, by omega⟩
  obtain ⟨n, hn, hsegs, hout⟩ := foldlM_placed
    (fun seg hseg => loadSegment_placed hw hread hmap hroom useFileSegmentMapping hseg) (hw.offsets_apart base.toNat) hw.sized
    (zeroBytes m base (totalSize f.commands)) (fun seg hseg x hx => by
      have := hw.span hseg (by omega)
      rw [Nat.add_assoc]
      exact hzero _ (by omega))
  refine ⟨n, hn, hsegs, fun x hx hgap => ?_⟩
  rw [hout _ fun seg hseg => ?_, hzero x hx]
  have := hgap seg hseg
  omega

/-! ## The loader -/


omit hw in
/-- `fromFile` writes a segment's bytes at once. -/
theorem mapSegment_eq (hsmall : f.contents.length < 2 ^ 63) {lo : UInt64}
    (hin : seg.fileoff.toNat + seg.filesize.toNat ≤ f.contents.length)
    (hwant : 0 < seg.filesize.toNat → (base + (seg.vmaddr - lo)).toNat + seg.filesize.toNat < 2 ^ 64) (n : Nat) (m : Mem) :
    Dyld.mapSegment f base lo n seg m = loadSegment f true (f.contents.take n) base lo m seg := by
  unfold Dyld.mapSegment loadSegment mapSegment
  by_cases hpos : 0 < seg.filesize
  · have hpos' : 0 < seg.filesize.toNat := UInt64.lt_iff_toNat_lt.mp hpos
    rw [if_pos hpos, if_pos hpos, if_pos rfl]
    dsimp only
    by_cases halign : seg.fileoff &&& 0xFFF ≠ 0 ∨ (seg.vmaddr - lo) &&& 0xFFF ≠ 0
    · rw [if_pos halign, if_pos halign]
    · obtain ⟨m1, hm1, h1⟩ := mapPages_spec (base + (seg.vmaddr - lo)) (hmap seg.fileoff) hin m
      obtain ⟨m2, hm2, h2⟩ := copyTail_spec n (base + (seg.vmaddr - lo)) hread hsmall hin (hwant hpos') m1
      have hle := fullPages_le seg.filesize.toNat
      have heq : writeBytes m (base + (seg.vmaddr - lo)) (fileBytes f.contents seg) = m2 := by
        funext y
        rw [h2, h1, show fileBytes f.contents seg = range f.contents seg.fileoff seg.filesize from rfl, writeBytes_range m _ hin]
        split
        · rename_i hy
          by_cases htail : (base + (seg.vmaddr - lo)).toNat + seg.filesize.toNat / 4096 * 4096 ≤ y
          · rw [if_pos ⟨htail, hy.2⟩]
          · rw [if_neg (by omega), if_pos (by omega)]
        · rw [if_neg (by omega), if_neg (by omega)]
      rw [if_neg halign, if_neg halign, if_neg (by simp [hmap]), if_neg (by simp [hread]), hm1, Option.bind_eq_bind,
        Option.bind_some, hm2, Option.bind_some, heq]
      rfl
  · rw [if_neg hpos, if_neg hpos]

/-- The loop of `fromFile` over a file's segments, by either of its branches. -/
theorem fromFile_segments (large : Bool) (hroom : Room f base) (m : Mem) :
    (if large then (segmentsOf f.commands).foldlM (fun m seg => Dyld.mapSegment f base (vmRange f.commands).1
        (snapshotReadSize f true) seg m) (zeroBytes m base (totalSize f.commands))
      else some (copySegments base (vmRange f.commands).1 f.contents (segmentsOf f.commands)
        (zeroBytes m base (totalSize f.commands)))) = buildImage f large base m := by
  unfold buildImage
  cases large with
  | true =>
    rw [if_pos rfl]
    refine Lib.Run.foldlM_congr (P := fun _ => True) (fun seg hseg m _ => ?_) (fun _ _ _ _ _ _ => trivial) trivial
    refine mapSegment_eq hread hmap hw.small (hw.inFile seg hseg) (fun hpos => ?_) _ m
    have hsized := hw.sized seg hseg
    have hspan := hw.span hseg (by omega)
    rw [hroom.addr_eq hw hseg (by omega)]
    unfold Room at hroom
    omega
  | false =>
    rw [if_neg (by simp), hw.snapshot_small]
    have hturn : loadSegment f false f.contents base (vmRange f.commands).1 = fun m seg => pure (if 0 < seg.filesize then
        writeBytes m (base + (seg.vmaddr - (vmRange f.commands).1)) (fileBytes f.contents seg) else m) := by
      funext m seg
      unfold loadSegment
      split <;> rfl
    rw [hturn, List.foldlM_pure]
    rfl

/-- What is built from a file is the image of its path through the loader. -/
theorem fromFile_builds (hmagic : f.magic = mhMagic64) (hstat : f.fstatOk = true) {W : World} {st : Proc}
    (hsnap : isNeg (W.mmap st.mmaps) = false) (hbase : isNeg (W.mmap (st.mmaps + 1)) = false)
    (hroom : Room f (W.mmap (st.mmaps + 1))) (path : CStr) :
    ∃ n, buildImage f (decide (1024 * 1024 ≤ f.contents.length)) (W.mmap (st.mmaps + 1)) st.mem = some n ∧
      fromFile W f path st = (some (.ofHeader W.cache (W.mmap (st.mmaps + 1))
        (W.mmap (st.mmaps + 1) - (vmRange f.commands).1) path f.commands), { st with mmaps := st.mmaps + 2, mem := n }) := by
  obtain ⟨n, hn, -⟩ := buildImage_holds hw hread hmap (decide (1024 * 1024 ≤ f.contents.length)) hroom st.mem
  refine ⟨n, hn, ?_⟩
  have hsize : f.size.toNat = f.contents.length := by
    rw [hw.size]
    rfl
  have hcommands := hw.commands
  unfold fromFile
  have hopen : ¬(f.fstatOk = false ∨ f.size ≤ 0) := by
    rintro (h | h)
    · rw [hstat] at h
      cases h
    · rw [hw.size] at h
      omega
  rw [if_neg hopen]
  dsimp only
  rw [if_neg (by simp [hsnap]), if_neg (by simp [hread]), if_neg (by simp [hmagic]), if_neg ?_, if_neg (by simp [hread]),
    if_neg (by simp [hbase])]
  · rw [← hsize, ← fromFile_segments hw hread hmap _ hroom] at hn
    by_cases hlarge : 1024 * 1024 ≤ f.size.toNat
    · rw [decide_eq_true hlarge, if_pos rfl] at hn
      simp only [snapshotReadSize, if_true] at hn
      simp only [if_pos hlarge]
      rw [hn]
    · rw [decide_eq_false hlarge, if_neg (by simp)] at hn
      rw [if_neg hlarge, hn]
  · rw [hsize]
    split <;> omega

end Loader

/-- Both ways build a well-formed dylib's image, so they build the same one wherever they put it,
    and the loader takes one of them. -/
theorem segments_agree {f : File} (hw : WellFormed f) (hread : ∀ off len, f.readOk off len = true)
    (hmap : ∀ off, f.mapOk off = true) :
    (∀ useFileSegmentMapping base m, Room f base →
      ∃ n, buildImage f useFileSegmentMapping base m = some n ∧ HoldsImage f base n) ∧
    (∀ base base' m m' n n', Room f base → Room f base' → buildImage f true base m = some n →
      buildImage f false base' m' = some n' → ∀ x < (totalSize f.commands).toNat, n (base.toNat + x) = n' (base'.toNat + x)) ∧
    ∀ (W : World) (path : CStr) (st : Proc), f.magic = mhMagic64 → f.fstatOk = true → isNeg (W.mmap st.mmaps) = false →
      isNeg (W.mmap (st.mmaps + 1)) = false → Room f (W.mmap (st.mmaps + 1)) →
      ∃ n, buildImage f (decide (1024 * 1024 ≤ f.contents.length)) (W.mmap (st.mmaps + 1)) st.mem = some n ∧
        fromFile W f path st = (some (.ofHeader W.cache (W.mmap (st.mmaps + 1))
          (W.mmap (st.mmaps + 1) - (vmRange f.commands).1) path f.commands), { st with mmaps := st.mmaps + 2, mem := n }) := by
  have hbuild := fun large base m (hroom : Room f base) => buildImage_holds hw hread hmap large hroom m
  refine ⟨hbuild, ?_, ?_⟩
  · intro base base' m m' n n' hroom hroom' hn hn'
    obtain ⟨n1, h1, hholds⟩ := hbuild true base m hroom
    obtain ⟨n2, h2, hholds'⟩ := hbuild false base' m' hroom'
    obtain rfl := Option.some.inj (h1.symm.trans hn)
    obtain rfl := Option.some.inj (h2.symm.trans hn')
    exact hholds.unique hholds'
  · exact fun W path st hmagic hstat hsnap hbase hroom => fromFile_builds hw hread hmap hmagic hstat hsnap hbase hroom path

section Example

/-- A page of code and a page of data of which six bytes are in the file. -/
def twoSegments : File where
  fstatOk := true
  size := 4102
  readOk _ _ := true
  mapOk _ := true
  magic := mhMagic64
  sizeofcmds := 144
  commands := [.segment ⟨segText, 0x1000, 0x1000, 0, 0x1000, 5, []⟩, .segment ⟨cstr "__DATA", 0x3000, 0x800, 0x1000, 6, 3, []⟩]
  contents := List.replicate 4102 0x90

theorem twoSegments_length : twoSegments.contents.length = 4102 := List.length_replicate

theorem twoSegments_wellFormed : WellFormed twoSegments where
  size := by rw [twoSegments_length]; rfl
  small := by rw [twoSegments_length]; decide
  commands := by rw [twoSegments_length]; decide
  aligned := by decide
  sized := by decide
  inFile := by rw [twoSegments_length]; decide
  below := by decide
  apart := by
    refine List.pairwise_cons.mpr ⟨fun t ht x _ hx => ?_, List.pairwise_singleton _ _⟩
    obtain rfl := List.mem_singleton.mp ht
    exact .inl (lt_of_lt_of_le hx (by decide))

theorem segments_agree_two : ∃ n n', buildImage twoSegments true 0x200000 (fun _ => 0) = some n ∧
    buildImage twoSegments false 0x700000 (fun _ => 0xFF) = some n' ∧
    ∀ x < 0x3000, n (0x200000 + x) = n' (0x700000 + x) := by
  obtain ⟨hbuild, hagree, -⟩ := segments_agree twoSegments_wellFormed (fun _ _ => rfl) (fun _ => rfl)
  have hroom : Room twoSegments 0x200000 := by unfold Room; decide
  have hroom' : Room twoSegments 0x700000 := by unfold Room; decide
  obtain ⟨n, hn, -⟩ := hbuild true 0x200000 (fun _ => 0) hroom
  obtain ⟨n', hn', -⟩ := hbuild false 0x700000 (fun _ => 0xFF) hroom'
  exact ⟨n, n', hn, hn', hagree _ _ _ _ n n' hroom hroom' hn hn'⟩

end Example

end Panthera.Dyld.Segments
