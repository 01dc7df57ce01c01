/-
  Panthera.Fixups.ImportFormats — the three formats of a chained import table.

  The header of the data declares how long an import is and where its name, its ordinal and
  its addend are (`ImportFormat`, `declaredImport`). dyld does not read that word of the
  header: it takes every table for one of 4-byte imports without addends.

  `import_format_iff`: when a bind slot gets what its import declares. The second import of a
  table with addends is read as the first one's addend (`second_import_misread`).
-/

import Panthera.Fixups.Windows

namespace Panthera.Fixups

open MachO Lib.Bytes Lib.Chain Chained

/-! ## The formats -/

/-- `DYLD_CHAINED_IMPORT`, `DYLD_CHAINED_IMPORT_ADDEND` and `DYLD_CHAINED_IMPORT_ADDEND64`. -/
inductive ImportFormat where
  | plain
  | addend
  | addend64
  deriving DecidableEq, Repr

namespace ImportFormat

def code : ImportFormat → UInt32
  | plain => 1
  | addend => 2
  | addend64 => 3

def size : ImportFormat → Nat
  | plain => 4
  | addend => 8
  | addend64 => 16

end ImportFormat

def importsFormat (data : Mem) : UInt32 := read32 data 20

/-- What an import asks for. -/
structure Import where
  name : CStr
  ordinal : Int
  addend : UInt64
  deriving DecidableEq, Repr

section Declared

variable (ld : LinkeditData)

/-- Where entry `n` of the table is. -/
def entryAt (f : ImportFormat) (n : Nat) : Nat := importsOffset (memOf ld.bytes) + f.size * n

def nameOffset (f : ImportFormat) (n : Nat) : Nat :=
  match f with
  | .plain | .addend => (read32 (memOf ld.bytes) (entryAt ld f n) >>> 9).toNat
  | .addend64 => (read64 (memOf ld.bytes) (entryAt ld f n) >>> 32).toNat

/-- The bytes from an import's name to the end of the data. -/
def nameBytes (f : ImportFormat) (n : Nat) : List UInt8 :=
  (ld.bytes.take ld.datasize.toNat).drop (symbolsOffset (memOf ld.bytes) + nameOffset ld f n)

/-- A 16-bit ordinal, sign-extended above 0xFFF0. -/
def importOrdinal64 (libOrdinal : UInt16) : Int := if 0xFFF0 < libOrdinal then libOrdinal.toInt16.toInt else libOrdinal.toNat

def declaredImport (f : ImportFormat) (n : Nat) : Import :=
  let data := memOf ld.bytes
  let entry := entryAt ld f n
  { name := cstrAt (nameBytes ld f n) 0
    ordinal := match f with
      | .plain | .addend => Panthera.Dyld.chainedImportOrdinal (read32 data entry).toUInt8
      | .addend64 => importOrdinal64 (read64 data entry).toUInt16
    addend := match f with
      | .plain => 0
      | .addend => (read32 data (entry + 4)).toInt32.toInt64.toUInt64
      | .addend64 => read64 data (entry + 8) }

/-- A table of the declared format inside the data, whose names end inside the data. -/
structure WellFormedImports (f : ImportFormat) : Prop where
  format : importsFormat (memOf ld.bytes) = f.code
  table : entryAt ld f (importsCount (memOf ld.bytes)) ≤ ld.datasize.toNat
  named : ∀ n < importsCount (memOf ld.bytes), 0 ∈ nameBytes ld f n

end Declared

/-! ## The value of a bind slot -/

/-- The address of an import's symbol plus both addends; 0 where there is no such symbol. -/
def Import.value (resolve : CStr → Int → UInt64) (addend : UInt64) (imp : Import) : UInt64 :=
  if resolve imp.name imp.ordinal ≠ 0 then resolve imp.name imp.ordinal + imp.addend + addend else 0

def importIndex (raw : UInt64) : Nat := (raw &&& 0xFFFFFF).toNat

def declaredValue (resolve : CStr → Int → UInt64) (ld : LinkeditData) (f : ImportFormat) (raw : UInt64) : UInt64 :=
  (declaredImport ld f (importIndex raw)).value resolve (addendOf raw)

namespace Dyld

open Panthera.Dyld

/-- What dyld stores for a bind of an import in the table. -/
def dyldValue (resolve : CStr → Int → UInt64) (ld : LinkeditData) (raw : UInt64) : UInt64 :=
  match chainedImport ld (.read (memOf ld.bytes)) (importIndex raw) with
  | some (name, ordinal) => Import.value resolve (addendOf raw) ⟨name, ordinal, 0⟩
  | none => 0

/-- dyld takes import `n` for the one that is declared, which has no addend. -/
def ReadsAs (ld : LinkeditData) (f : ImportFormat) (n : Nat) : Prop :=
  chainedImport ld (.read (memOf ld.bytes)) n = some ((declaredImport ld f n).name, (declaredImport ld f n).ordinal) ∧
    (declaredImport ld f n).addend = 0

section

variable {ld : LinkeditData}

theorem nameOffset_lt {f : ImportFormat} {n : Nat} (h : 0 ∈ nameBytes ld f n) :
    symbolsOffset (memOf ld.bytes) + nameOffset ld f n < ld.datasize.toNat := by
  have hlen := List.length_pos_of_mem h
  have hin := ld.inFile
  rw [nameBytes, List.length_drop, List.length_take] at hlen
  omega

/-- The first format is the one that dyld reads. -/
theorem readsAs_plain (hw : WellFormedImports ld .plain) {n : Nat} (hn : n < importsCount (memOf ld.bytes)) :
    ReadsAs ld .plain n := by
  refine ⟨?_, rfl⟩
  have hterm := hw.named n hn
  have hlt := nameOffset_lt hterm
  have htable := hw.table
  simp only [entryAt, ImportFormat.size] at htable
  unfold chainedImport
  dsimp only
  rw [if_neg, if_pos]
  · rfl
  · exact List.contains_iff_mem.mpr hterm
  · show ¬ (rangeWithin ld.datasize.toNat (importsOffset (memOf ld.bytes) + 4 * n) 4 = false ∨
      ld.datasize.toNat - symbolsOffset (memOf ld.bytes) ≤ nameOffset ld .plain n)
    simp only [rangeWithin, Bool.and_eq_false_iff, decide_eq_false_iff_not]
    omega

theorem value_ne_zero (imp : Import) (addend : UInt64) : ∃ addr ≠ 0, ∀ resolve : CStr → Int → UInt64,
    resolve imp.name imp.ordinal = addr → imp.value resolve addend ≠ 0 := by
  -- at most one address is cancelled by the addends
  by_cases h : (1 : UInt64) + imp.addend + addend = 0
  · refine ⟨2, by decide, fun resolve hres => ?_⟩
    rw [Import.value, hres, if_pos (by decide)]
    intro h2
    have h12 : (2 : UInt64) + imp.addend + addend = 1 + imp.addend + addend := h2.trans h.symm
    rw [UInt64.add_left_inj, UInt64.add_left_inj] at h12
    exact absurd h12 (by decide)
  · refine ⟨1, by decide, fun resolve hres => ?_⟩
    rw [Import.value, hres, if_pos (by decide)]
    exact h

/-- dyld stores what is declared, whatever the symbols resolve to, exactly if it reads the
    declared import. -/
theorem dyldValue_eq_declared_iff (f : ImportFormat) (raw : UInt64) :
    (∀ resolve, dyldValue resolve ld raw = declaredValue resolve ld f raw) ↔ ReadsAs ld f (importIndex raw) := by
  constructor
  · intro h
    obtain ⟨addr, haddr, hne⟩ := value_ne_zero (declaredImport ld f (importIndex raw)) (addendOf raw)
    unfold dyldValue declaredValue at h
    rcases himp : chainedImport ld (.read (memOf ld.bytes)) (importIndex raw) with _ | ⟨name, ordinal⟩
    · rw [himp] at h
      exact absurd (h fun _ _ => addr).symm (hne _ rfl)
    · rw [himp] at h
      have hsame : name = (declaredImport ld f (importIndex raw)).name ∧
          ordinal = (declaredImport ld f (importIndex raw)).ordinal := by
        by_contra hdiff
        -- a process in which only the declared import is defined
        let resolve : CStr → Int → UInt64 := fun n o =>
          if n = (declaredImport ld f (importIndex raw)).name ∧ o = (declaredImport ld f (importIndex raw)).ordinal then addr
          else 0
        refine hne resolve (by simp [resolve]) ((h resolve).symm.trans ?_)
        simp [Import.value, resolve, hdiff]
      refine ⟨by rw [himp, ← hsame.1, ← hsame.2], ?_⟩
      have hone : (1 : UInt64) + 0 + addendOf raw = 1 + (declaredImport ld f (importIndex raw)).addend + addendOf raw :=
        h fun _ _ => 1
      rw [UInt64.add_left_inj, UInt64.add_right_inj] at hone
      exact hone.symm
  · rintro ⟨himp, hadd⟩ resolve
    simp only [dyldValue, himp, declaredValue, Import.value, hadd]

variable {W : World} {i : Nat} {img : LoadedImage} {st0 : Proc}

theorem chainVisit_bind {v : Visit} (hb : isBind v.raw = true) (hidx : importIndex v.raw < importsCount (memOf ld.bytes))
    (st : Proc) : read64 (chainVisit W i img ld v st).mem v.slot =
      dyldValue (fun name ordinal => (resolveSymbol W name ordinal false (some i) st).1) ld v.raw := by
  have hbit : ¬ (v.raw >>> 63) &&& 1 = 0 := by simpa [isBind] using hb
  unfold chainVisit chainedFixup dyldValue
  rw [if_neg hbit]
  dsimp only
  rw [if_pos (show (v.raw &&& 0xFFFFFF).toNat < (ChainedHeader.read (memOf ld.bytes)).importsCount from hidx), importIndex]
  rcases chainedImport ld (.read (memOf ld.bytes)) (v.raw &&& 0xFFFFFF).toNat with _ | ⟨name, ordinal⟩
  · exact read64_write64 _ _ _
  · refine (read64_write64 _ _ _).trans ?_
    simp only [Import.value, UInt64.add_zero]
    rfl

/-- A bind slot ends with what dyld's reading of the table gives it, and that is what the
    table declares exactly if the table is of the first format or reads as if it were. -/
theorem import_format_iff (h : Visitable W i img ld st0) {f : ImportFormat} (hw : WellFormedImports ld f)
    (hidx : ∀ v ∈ slotVisits W img ld st0.mem, isBind v.raw = true → importIndex v.raw < importsCount (memOf ld.bytes)) :
    ∃ st, applyChainedFixups W i st0 = some st ∧ ∀ v ∈ slotVisits W img ld st0.mem, isBind v.raw = true →
      (∃ st1, During W i img ld st0 st1 ∧ read64 st.mem v.slot =
        dyldValue (fun name ordinal => (resolveSymbol W name ordinal false (some i) st1).1) ld v.raw) ∧
      ((∀ resolve, dyldValue resolve ld v.raw = declaredValue resolve ld f v.raw) ↔
        f = .plain ∨ ReadsAs ld f (importIndex v.raw)) := by
  refine ⟨_, applyChainedFixups_visits h, fun v hv hb => ⟨?_, ?_⟩⟩
  · obtain ⟨st1, hst1, -, hleft⟩ := h.left hv
    exact ⟨st1, hst1, hleft.trans (chainVisit_bind hb (hidx v hv hb) st1)⟩
  · rw [dyldValue_eq_declared_iff]
    refine ⟨.inr, ?_⟩
    rintro (rfl | hreads)
    · exact readsAs_plain hw (hidx v hv hb)
    · exact hreads

end

section Example

theorem bindData_imports : WellFormedImports (bindData 0xFE) .plain := ⟨by decide, by decide, by decide⟩

theorem import_format_iff_plain : ∃ st, applyChainedFixups bareWorld 0 (wordProc bindWord) = some st ∧
    ∃ resolve, read64 st.mem 0x1100 = declaredValue resolve (bindData 0xFE) .plain bindWord := by
  have h0 : stride bindWord = 0 := by decide
  have hidx : importIndex bindWord < importsCount (memOf (bindData 0xFE).bytes) := by decide
  obtain ⟨st, hrun, hslots⟩ := import_format_iff (wordProc_visitable h0) bindData_imports (by
    rw [wordProc_visits h0]
    intro v hv _
    rw [List.mem_singleton] at hv
    subst hv
    exact hidx)
  rw [wordProc_visits h0] at hslots
  obtain ⟨⟨st1, -, hread⟩, hiff⟩ := hslots _ (List.mem_singleton_self _) (by decide)
  exact ⟨st, hrun, _, hread.trans (hiff.mpr (.inl rfl) _)⟩

/-- Imports with addends: `_a`, and `_b` plus 7. -/
def addendData : LinkeditData where
  dataoff := 0
  datasize := 84
  bytes := [0, 0, 0, 0, 28, 0, 0, 0, 60, 0, 0, 0, 76, 0, 0, 0, 2, 0, 0, 0, 2, 0, 0, 0, 0, 0, 0, 0] ++
    [1, 0, 0, 0, 8, 0, 0, 0] ++
    [24, 0, 0, 0, 0, 0x10, 6, 0, 0, 1, 0, 0, 0, 0, 0, 0, 0, 0, 0, 0, 1, 0, 0, 0] ++
    [0xFE, 2, 0, 0, 0, 0, 0, 0] ++ [0xFE, 8, 0, 0, 7, 0, 0, 0] ++ [0, 0x5F, 0x61, 0, 0x5F, 0x62, 0, 0]
  inFile := by simp

def addendImage : LoadedImage where
  header := 0x1000
  slide := 0x1000
  path := cstr "/lib/a"
  commands := [.segment ⟨segText, 0, 16, 0, 16, 5, []⟩, .segment ⟨cstr "__DATA", 0x100, 16, 16, 16, 3, []⟩,
    .segment ⟨segLinkedit, 0x200, 84, 0, 84, 1, []⟩, .chainedFixups addendData]
  symtab := none

/-- Its only slot binds the second import with the addend 5; another image has `_b` at 0x4000. -/
def addendProc : Proc :=
  { Proc.ofImages [addendImage, exampleImage "/lib/b" [] [⟨1, 0x0F, 0, 0x4000⟩] ([0] ++ cstr "_b" ++ [0])] with
    mem := write64 (fun _ => 0) 0x1100 0x8000000005000001 }

theorem addendData_imports : WellFormedImports addendData .addend := ⟨by decide, by decide, by decide⟩

theorem addendProc_visitable : Visitable bareWorld 0 addendImage addendData addendProc :=
  firstPage_visitable (by decide) (by decide) rfl rfl fun n => by
    show (if n ≤ 0 then none else (([] : List CStr)[n.toNat - 1]?)) = none
    simp

/-- dyld takes the addend of the first import for the second import, and stores 0. -/
theorem second_import_misread : WellFormedImports addendData .addend ∧
    Visitable bareWorld 0 addendImage addendData addendProc ∧
    (applyChainedFixups bareWorld 0 addendProc).map (fun st => read64 st.mem 0x1100) = some 0 ∧
    declaredValue (fun name ordinal => (resolveSymbol bareWorld name ordinal false (some 0) addendProc).1) addendData .addend
      0x8000000005000001 = 0x400C :=
  ⟨addendData_imports, addendProc_visitable, by decide, by decide⟩

end Example

end Dyld

end Panthera.Fixups
