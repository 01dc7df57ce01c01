/-
  Panthera.Dyld.Fixups — dyld's fixups of one image (`applyChainedFixups`,
  `applyRebases`, `applyBinds`).

  The opcode streams are run by the interpreters of `Panthera.Fixups.Opcodes` on the
  process: a rebase adds the slide to a word, a bind resolves its symbol, which may load
  images, and stores the address. A chain is walked page by page through the words it
  fixes up. `none` is a fault: an operand past the mapped bytes, a segment index past
  the sixteen segments that are looked at, or a page offset past `int`.

  Proved: what storing a word and resolving a symbol keep, the fixups of an image keep
  (`applyChainedFixups_inv`, `applyRebases_inv`, `applyBinds_inv`).
-/

import Panthera.Lib.Run
import Panthera.Dyld.Resolve

namespace Panthera.Dyld

open MachO Lib.Bytes Lib.Run

/-! ## Opcode streams -/

/-- `__TEXT` and `__LINKEDIT`, where both are there and the latter's data can be found. -/
def linkeditOf (C : SharedCache) (img : LoadedImage) : Option (Segment × Segment) :=
  match findSegment img.commands segText, findSegment img.commands segLinkedit with
  | some textSeg, some linkSeg =>
    if linkeditBaseForImage C img.header textSeg linkSeg = 0 then none else some (textSeg, linkSeg)
  | _, _ => none

def dyldInfos (cmds : List LoadCommand) : List DyldInfo :=
  cmds.filterMap fun
    | .dyldInfo di => some di
    | _ => none

/-- The location `segOffset` bytes into `segs[segIndex]`, one of the first sixteen segments. -/
def fixupLoc (img : LoadedImage) (textSeg : Segment) (segIndex : UInt8) (segOffset : UInt64) : Option Nat :=
  ((segmentsOf img.commands).take 16)[segIndex.toNat]?.map fun seg =>
    (img.header + seg.vmaddr - textSeg.vmaddr + segOffset).toNat

def Proc.store (st : Proc) (loc : Nat) (v : UInt64) : Proc := { st with mem := write64 st.mem loc v }

/-- A stream's run, a fault if an operand ran off the mapped bytes. -/
def finished (r : Option Proc × Bool) : Option Proc := if r.2 then r.1 else none

def rebaseAt (img : LoadedImage) (textSeg : Segment) (e : Fixups.RebaseEvent) (st : Option Proc) : Option Proc := do
  let st ← st
  let loc ← fixupLoc img textSeg e.segIndex e.segOffset
  some (st.store loc (read64 st.mem loc + img.slide))

/-- The loop over the commands; a command with nothing to do ends it. -/
def rebaseInfos (W : World) (img : LoadedImage) : List DyldInfo → Proc → Option Proc
  | [], st => some st
  | di :: dis, st =>
    if di.rebase.size = 0 then some st
    else
      match linkeditOf W.cache img with
      | none => some st
      | some (textSeg, _) =>
        (finished (Fixups.Dyld.applyRebases (rebaseAt img textSeg) di.rebase (some st))).bind (rebaseInfos W img dis)

def applyRebases (W : World) (i : Nat) (st : Proc) : Option Proc :=
  match st.images[i]? with
  | none => some st
  | some img => rebaseInfos W img (dyldInfos img.commands) st

def bindResolve (W : World) (i : Nat) (name : CStr) (ordinal : Int) : Option Proc → UInt64 × Option Proc
  | none => (0, none)
  | some st =>
    match resolveSymbol W name ordinal false (some i) st with
    | (addr, st) => (addr, some st)

/-- A symbol that is not found leaves its slot alone, unless it may be missing. -/
def bindStore (img : LoadedImage) (textSeg : Segment) (e : Fixups.BindEvent) (addr : UInt64) (st : Option Proc) :
    Option Proc := do
  let st ← st
  let loc ← fixupLoc img textSeg e.segIndex e.segOffset
  if addr ≠ 0 then some (st.store loc (addr + e.addend))
  else if e.weakImport then some (st.store loc 0)
  else some st

def bindPass (W : World) (i : Nat) (img : LoadedImage) (pass : Nat) (s : Stream) (st : Proc) : Option Proc :=
  if s.size = 0 then some st
  else
    match linkeditOf W.cache img with
    | none => some st
    | some (textSeg, _) => finished (Fixups.Dyld.applyBinds (bindResolve W i) (bindStore img textSeg) pass s (some st))

/-- The binds of a command, then its lazy binds. -/
def bindInfo (W : World) (i : Nat) (img : LoadedImage) (st : Proc) (di : DyldInfo) : Option Proc := do
  bindPass W i img 1 di.lazyBind (← bindPass W i img 0 di.bind st)

def applyBinds (W : World) (i : Nat) (st : Proc) : Option Proc :=
  match st.images[i]? with
  | none => some st
  | some img => (dyldInfos img.commands).foldlM (bindInfo W i img) st

/-! ## Chained fixups -/

/-- `rangeWithin`, for offsets into data of that many bytes. -/
def rangeWithin (datasize off size : Nat) : Bool := off ≤ datasize && size ≤ datasize - off

/-- The words of `dyld_chained_fixups_header` that are read. -/
structure ChainedHeader where
  startsOffset : Nat
  importsOffset : Nat
  symbolsOffset : Nat
  importsCount : Nat

def ChainedHeader.read (data : Mem) : ChainedHeader where
  startsOffset := (read32 data 4).toNat
  importsOffset := (read32 data 8).toNat
  symbolsOffset := (read32 data 12).toNat
  importsCount := (read32 data 16).toNat

/-- `lib_ordinal`, sign-extended above 0xF0. -/
def chainedImportOrdinal (libOrdinal : UInt8) : Int := if 0xF0 < libOrdinal then libOrdinal.toInt8.toInt else libOrdinal.toNat

/-- The symbol an import names; `none` where it is malformed or not terminated. -/
def chainedImport (ld : LinkeditData) (h : ChainedHeader) (ordinal : Nat) : Option (CStr × Int) :=
  let imp := read32 (memOf ld.bytes) (h.importsOffset + 4 * ordinal)
  let nameOffset := (imp >>> 9).toNat
  if rangeWithin ld.datasize.toNat (h.importsOffset + 4 * ordinal) 4 = false ∨
      ld.datasize.toNat - h.symbolsOffset ≤ nameOffset then none
  else
    let rest := (ld.bytes.take ld.datasize.toNat).drop (h.symbolsOffset + nameOffset)
    if rest.contains 0 then some (cstrAt rest 0, chainedImportOrdinal imp.toUInt8) else none

/-- The rebase of one word, in the two formats that are known. -/
def chainedRebase (img : LoadedImage) (pointerFormat : UInt16) (raw : UInt64) : Option UInt64 :=
  let target := raw &&& 0xFFFFFFFFF
  let high8 := ((raw >>> 36) &&& 0xFF) <<< 56
  if pointerFormat = 2 then some ((target + img.slide) ||| high8)
  else if pointerFormat = 6 then some ((img.header + target) ||| high8)
  else none

/-- One word of a chain. A symbol that is not found becomes 0; an import past the table
    leaves the word alone. -/
def chainedFixup (W : World) (i : Nat) (img : LoadedImage) (ld : LinkeditData) (h : ChainedHeader)
    (pointerFormat : UInt16) (loc : Nat) (raw : UInt64) (st : Proc) : Proc :=
  if (raw >>> 63) &&& 1 = 0 then
    match chainedRebase img pointerFormat raw with
    | some v => st.store loc v
    | none => st
  else
    let ordinal := (raw &&& 0xFFFFFF).toNat
    if ordinal < h.importsCount then
      match chainedImport ld h ordinal with
      | none => st.store loc 0
      | some (name, libOrdinal) =>
        match resolveSymbol W name libOrdinal false (some i) st with
        | (addr, st) =>
          st.store loc (if addr ≠ 0 then addr + (raw >>> 24).toUInt8.toInt8.toInt64.toUInt64 else 0)
    else st

/-- `while (true)` over one page, which takes `maxSteps` turns at most. -/
def walkChain (fix : Nat → UInt64 → Proc → Proc) (pageAddr pageEnd : UInt64) : Nat → UInt64 → Proc → Proc
  | 0, _, st => st
  | steps + 1, loc, st =>
    if loc < pageAddr ∨ pageEnd < loc + 8 then st
    else
      let raw := read64 st.mem loc.toNat
      let next := (raw >>> 51) &&& 0xFFF
      let st := fix loc.toNat raw st
      if next = 0 then st else walkChain fix pageAddr pageEnd steps (loc + next * 4) st

section Chains

variable (W : World) (i : Nat) (img : LoadedImage) (ld : LinkeditData) (h : ChainedHeader)

/-- A page of the segment whose `dyld_chained_starts_in_segment` is at `info`. -/
def chainedPage (info : Nat) (st : Proc) (page : Nat) : Option Proc :=
  let data := memOf ld.bytes
  let pageSize := (read16 data (info + 4)).toNat
  let pageStart := read16 data (info + 22 + 2 * page)
  if pageStart = 0xFFFF ∨ pageStart &&& 0x8000 ≠ 0 then some st
  else if 2 ^ 31 ≤ page * pageSize then none
  else
    let pageAddr := img.header + read64 data (info + 8) + UInt64.ofNat (page * pageSize)
    some (walkChain (chainedFixup W i img ld h (read16 data (info + 6))) pageAddr (pageAddr + UInt64.ofNat pageSize)
      (pageSize / 4 + 1) (pageAddr + pageStart.toUInt64) st)

/-- One segment; a malformed one is passed over. -/
def chainedSegment (st : Proc) (seg : Nat) : Option Proc :=
  let data := memOf ld.bytes
  let infoOffset := (read32 data (h.startsOffset + 4 + 4 * seg)).toNat
  let info := h.startsOffset + infoOffset
  let size := (read32 data info).toNat
  let pageCount := (read16 data (info + 20)).toNat
  if infoOffset = 0 then some st
  else if rangeWithin ld.datasize.toNat info 24 = false ∨ size < 24 ∨ rangeWithin ld.datasize.toNat info size = false then
    some st
  else if size < 22 + 2 * pageCount ∨ read16 data (info + 4) = 0 then some st
  else (List.range pageCount).foldlM (chainedPage W i img ld h info) st

end Chains

/-- The checks on the data's header; the number of segments, if they pass. -/
def chainedStarts (linkSeg : Segment) (ld : LinkeditData) (h : ChainedHeader) : Option Nat :=
  let datasize := ld.datasize.toNat
  let segCount := (read32 (memOf ld.bytes) h.startsOffset).toNat
  if ld.dataoff.toUInt64 < linkSeg.fileoff ∨
      linkSeg.fileoff + linkSeg.filesize < ld.dataoff.toUInt64 + ld.datasize.toUInt64 ∨ datasize < 28 then none
  else if datasize ≤ h.startsOffset ∨ datasize < h.importsOffset ∨ datasize ≤ h.symbolsOffset ∨
      datasize < h.importsOffset + 4 * h.importsCount then none
  else if rangeWithin datasize h.startsOffset 4 = false then none
  else if 32 < segCount ∨ rangeWithin datasize h.startsOffset (4 + 4 * segCount) = false then none
  else some segCount

/-- The loop over the commands; malformed data ends it. -/
def chainedCommands (W : World) (i : Nat) (img : LoadedImage) : List LinkeditData → Proc → Option Proc
  | [], st => some st
  | ld :: lds, st =>
    let h := ChainedHeader.read (memOf ld.bytes)
    match (linkeditOf W.cache img).bind fun segs => chainedStarts segs.2 ld h with
    | none => some st
    | some segCount =>
      ((List.range segCount).foldlM (chainedSegment W i img ld h) st).bind (chainedCommands W i img lds)

def chainedData (cmds : List LoadCommand) : List LinkeditData :=
  cmds.filterMap fun
    | .chainedFixups ld => some ld
    | _ => none

def applyChainedFixups (W : World) (i : Nat) (st : Proc) : Option Proc :=
  match st.images[i]? with
  | none => some st
  | some img => chainedCommands W i img (chainedData img.commands) st

/-! ## Invariants -/

theorem sound_finished {P : Proc → Prop} {r : Option Proc × Bool} (h : Sound P r.1) : Sound P (finished r) := by
  unfold finished
  split
  · exact h
  · exact .none

/-- A property that storing a word and resolving a symbol keep. -/
structure Fixable (W : World) (P : Proc → Prop) : Prop where
  store : ∀ st loc v, P st → P (st.store loc v)
  resolve : ∀ i name ordinal st, P st → P (resolveSymbol W name ordinal false (some i) st).2

theorem Invariant.fixable {W : World} {P : Proc → Prop} (hP : Invariant W P) : Fixable W P where
  store st _ _ h := hP.keeps st _ ⟨rfl, rfl⟩ h
  resolve i name ordinal _ h := resolveSymbol_inv hP name ordinal false (some i) h

section Invariants

variable {W : World} {P : Proc → Prop} (hP : Fixable W P)
include hP

variable (i : Nat) (img : LoadedImage)

theorem rebaseAt_inv (textSeg : Segment) (e : Fixups.RebaseEvent) {st : Option Proc} (h : Sound P st) :
    Sound P (rebaseAt img textSeg e st) := by
  refine h.bind fun st h => ?_
  rcases fixupLoc img textSeg e.segIndex e.segOffset with _ | loc
  · exact .none
  · exact .some (hP.store _ loc _ h)

theorem rebaseInfos_inv : ∀ (dis : List DyldInfo) {st : Proc}, P st → Sound P (rebaseInfos W img dis st) := by
  intro dis
  induction dis with
  | nil => intro st h; exact .some h
  | cons di dis ih =>
    intro st h
    unfold rebaseInfos
    split
    · exact .some h
    · split
      · exact .some h
      · rename_i textSeg _ _
        refine Sound.bind (sound_finished ?_) fun st h => ih h
        exact Fixups.Dyld.rebaseOps_inv (fun e _ h => rebaseAt_inv hP img textSeg e h) _ _ _ 0 0 _ (.some h)

variable {st : Proc}

theorem applyRebases_inv (h : P st) : Sound P (applyRebases W i st) := by
  unfold applyRebases
  split
  · exact .some h
  · exact rebaseInfos_inv hP _ _ h

theorem bindResolve_inv (name : CStr) (ordinal : Int) {st : Option Proc} (h : Sound P st) :
    Sound P (bindResolve W i name ordinal st).2 := by
  cases st with
  | none => exact .none
  | some st => exact .some (hP.resolve i name ordinal st (h st rfl))

theorem bindStore_inv (textSeg : Segment) (e : Fixups.BindEvent) (addr : UInt64) {st : Option Proc}
    (h : Sound P st) : Sound P (bindStore img textSeg e addr st) := by
  refine h.bind fun st h => ?_
  rcases fixupLoc img textSeg e.segIndex e.segOffset with _ | loc
  · exact .none
  · dsimp only [Option.bind_some, Bind.bind]
    split
    · exact .some (hP.store _ loc _ h)
    · split
      · exact .some (hP.store _ loc _ h)
      · exact .some h

theorem bindPass_inv (pass : Nat) (s : Stream) (h : P st) : Sound P (bindPass W i img pass s st) := by
  unfold bindPass
  split
  · exact .some h
  · split
    · exact .some h
    · rename_i textSeg _ _
      refine sound_finished ?_
      exact Fixups.Dyld.bindOps_inv (fun n o _ h => bindResolve_inv hP i n o h)
        (fun e a _ h => bindStore_inv hP img textSeg e a h) pass _ _ _ _ _ _ (.some h)

theorem applyBinds_inv (h : P st) : Sound P (applyBinds W i st) := by
  unfold applyBinds
  split
  · exact .some h
  · refine Sound.foldlM (fun st di h => ?_) _ h
    exact Sound.bind (bindPass_inv hP i _ 0 di.bind h) fun st h => bindPass_inv hP i _ 1 di.lazyBind h

theorem chainedFixup_inv (ld : LinkeditData) (hd : ChainedHeader) (pointerFormat : UInt16)
    (loc : Nat) (raw : UInt64) (h : P st) : P (chainedFixup W i img ld hd pointerFormat loc raw st) := by
  unfold chainedFixup
  split
  · split
    · exact hP.store _ loc _ h
    · exact h
  · dsimp only
    split
    · split
      · exact hP.store _ loc _ h
      · rename_i name libOrdinal _
        exact hP.store _ loc _ (hP.resolve i name libOrdinal _ h)
    · exact h

omit hP in
theorem walkChain_inv {fix : Nat → UInt64 → Proc → Proc} (hfix : ∀ loc raw st, P st → P (fix loc raw st))
    (pageAddr pageEnd : UInt64) : ∀ (steps : Nat) (loc : UInt64) {st : Proc}, P st →
    P (walkChain fix pageAddr pageEnd steps loc st) := by
  intro steps
  induction steps with
  | zero => intro loc st h; exact h
  | succ steps ih =>
    intro loc st h
    unfold walkChain
    dsimp only
    split
    · exact h
    · split
      · exact hfix _ _ _ h
      · exact ih _ (hfix _ _ _ h)

theorem chainedSegment_inv (ld : LinkeditData) (hd : ChainedHeader) (seg : Nat)
    (h : P st) : Sound P (chainedSegment W i img ld hd st seg) := by
  unfold chainedSegment
  dsimp only
  split
  · exact .some h
  · split
    · exact .some h
    · split
      · exact .some h
      · refine Sound.foldlM (fun st page h => ?_) _ h
        unfold chainedPage
        dsimp only
        split
        · exact .some h
        · split
          · exact .none
          · exact .some (walkChain_inv (fun loc raw _ h => chainedFixup_inv hP i img ld hd _ loc raw h) _ _ _ _ h)

theorem chainedCommands_inv : ∀ (lds : List LinkeditData) {st : Proc}, P st → Sound P (chainedCommands W i img lds st) := by
  intro lds
  induction lds with
  | nil => intro st h; exact .some h
  | cons ld lds ih =>
    intro st h
    unfold chainedCommands
    dsimp only
    split
    · exact .some h
    · exact Sound.bind (Sound.foldlM (fun st seg h => chainedSegment_inv hP i img ld _ seg h) _ h) fun st h => ih h

theorem applyChainedFixups_inv (h : P st) : Sound P (applyChainedFixups W i st) := by
  unfold applyChainedFixups
  split
  · exact .some h
  · exact chainedCommands_inv hP i _ _ h

end Invariants

end Panthera.Dyld
