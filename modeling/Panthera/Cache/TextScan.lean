/-
  Panthera.Cache.TextScan — what `patch_text_rip_refs` writes to in a code section.

  A code section is a sequence of instructions (`Insn`: prefixes and opcode, ModRM with what it
  calls for, immediate). Its RIP-relative operands have displacement fields of four bytes, and
  these are what the scan is for. It does not follow the instructions: at every position it
  takes the bytes before for an opcode, if they look like one, and the four bytes after for a
  displacement, if that leads to data.

  A position is a stray if it is no field and is taken for one, in the buffer in which the
  fields before it have been rewritten; the scan is right where there is none
  (`text_scan_frame`).
-/

import Panthera.Cache.CrossRefs

namespace Panthera.Cache

open MachO Lib.Bytes Lib.Run

/-! ## Instructions -/

/-- How many bytes of displacement ModRM and SIB call for. -/
def dispBytes (modrm : UInt8) (sib : Option UInt8) : Nat :=
  if modrm >>> 6 = 1 then 1
  else if modrm >>> 6 = 2 then 4
  else if modrm >>> 6 = 0 ∧ (modrm &&& 7 = 5 ∨ ∃ b ∈ sib, b &&& 7 = 5) then 4
  else 0

/-- ModRM and what it calls for. -/
structure Operand where
  modrm : UInt8
  sib : Option UInt8
  disp : List UInt8
  sib_ok : sib.isSome ↔ modrm >>> 6 ≠ 3 ∧ modrm &&& 7 = 4
  disp_length : disp.length = dispBytes modrm sib

/-- No register, no SIB: the displacement counts from the next instruction. -/
def Operand.riprel (o : Operand) : Bool := o.modrm &&& 0xC7 = 0x05

/-- An instruction as it is encoded; `lead` is the prefixes and the opcode. -/
structure Insn where
  lead : List UInt8
  operand : Option Operand
  imm : List UInt8
  lead_ok : lead ≠ []

namespace Insn

def operandBytes (i : Insn) : List UInt8 :=
  match i.operand with
  | some o => o.modrm :: (o.sib.toList ++ o.disp)
  | none => []

def bytes (i : Insn) : List UInt8 := i.lead ++ i.operandBytes ++ i.imm

/-- Where in the instruction the displacement of a RIP-relative operand is. -/
def field (i : Insn) : Option Nat := if i.operand.any (·.riprel) then some (i.lead.length + 1) else none

end Insn

def codeBytes (code : List Insn) : List UInt8 := code.flatMap (·.bytes)

/-- The displacement fields in code that begins at `start`. -/
def codeFields : Nat → List Insn → List Nat
  | _, [] => []
  | start, i :: code => (i.field.map (start + ·)).toList ++ codeFields (start + i.bytes.length) code

/-! ## The scan, position by position -/

def scannedSections (d : DylibInfo) : List Section64 :=
  (((segmentsOf d.commands).filter (·.segname == segText)).flatMap (·.sections)).filter isScanned

/-- A position in a section. -/
abbrev Place := Section64 × Nat

/-- The positions that the scan comes to, in order. -/
def places (d : DylibInfo) : List Place := (scannedSections d).flatMap fun sect => (List.range (sect.size.toNat - 3)).map (sect, ·)

/-- Where in the buffer a position is. -/
def Place.offset (d : DylibInfo) (p : Place) : Nat := textOffset d p.1 + p.2

/-- The four bytes at the position are taken for a displacement into the data. -/
def Taken (d : DylibInfo) (buf : Mem) (p : Place) : Prop :=
  let decoded := decodeRiprelDisp32 (buf.from (textOffset d p.1)) p.2 p.1.size.toNat
  decoded.1 = true ∧ isInDataRegion d (riprelTarget
    (d.textSeg.origVmaddr + (p.1.addr - d.textSeg.origVmaddr) + UInt64.ofNat p.2) (read32 buf (p.offset d)) decoded.2) = true

instance (d : DylibInfo) (buf : Mem) (p : Place) : Decidable (Taken d buf p) := inferInstanceAs (Decidable (_ ∧ _))

theorem patchPosition_eq (d : DylibInfo) (st : Patched) (p : Place) :
    patchPosition d p.1 st p.2 = if Taken d st.buf p then patchField d (p.offset d) st else some st := by
  rcases hdec : decodeRiprelDisp32 (st.buf.from (textOffset d p.1)) p.2 p.1.size.toNat with ⟨_ | _, trailingImm⟩
  · have hnot : ¬ Taken d st.buf p := by simp [Taken, hdec]
    rw [if_neg hnot]
    simp only [patchPosition, hdec]
  · have hiff : Taken d st.buf p ↔ isInDataRegion d (riprelTarget
        (d.textSeg.origVmaddr + (p.1.addr - d.textSeg.origVmaddr) + UInt64.ofNat p.2) (read32 st.buf (p.offset d)) trailingImm) = true := by
      simp [Taken, hdec]
    simp only [patchPosition, hdec, hiff]
    rfl

theorem patchTextRipRefs_eq {d : DylibInfo} (h : getCodeToDataDelta d ≠ 0) (st : Patched) :
    patchTextRipRefs d st = (places d).foldlM (fun st p => patchPosition d p.1 st p.2) st := by
  unfold patchTextRipRefs places
  rw [if_neg h, foldlM_flatMap]
  refine congrArg (fun f => (scannedSections d).foldlM f st) (funext fun st => funext fun sect => ?_)
  rw [List.foldlM_map]

/-! ## Code in the sections -/

section

variable (d : DylibInfo) (code : Section64 → List Insn)

/-- Two sections have no byte of the buffer in common. -/
def SectionsApart (s t : Section64) : Prop :=
  textOffset d s + s.size.toNat ≤ textOffset d t ∨ textOffset d t + t.size.toNat ≤ textOffset d s

instance (s t : Section64) : Decidable (SectionsApart d s t) := inferInstanceAs (Decidable (_ ∨ _))

instance : Std.Symm (SectionsApart d) := ⟨fun _ _ => Or.symm⟩

/-- The sections that are scanned hold instructions and do not overlap. -/
structure HoldsCode (buf : Mem) : Prop where
  bytes : ∀ sect ∈ scannedSections d, bytesAt buf (textOffset d sect) (codeBytes (code sect)) = true
  length : ∀ sect ∈ scannedSections d, (codeBytes (code sect)).length = sect.size.toNat
  apart : (scannedSections d).Pairwise (SectionsApart d)

def IsField (p : Place) : Prop := p.2 ∈ codeFields 0 (code p.1)

instance (p : Place) : Decidable (IsField code p) := inferInstanceAs (Decidable (_ ∈ _))

/-- The byte is in the displacement of a RIP-relative operand. -/
def InField (x : Nat) : Prop :=
  ∃ sect ∈ scannedSections d, ∃ r ∈ codeFields 0 (code sect), textOffset d sect + r ≤ x ∧ x < textOffset d sect + r + 4

instance (x : Nat) : Decidable (InField d code x) :=
  inferInstanceAs (Decidable (∃ sect ∈ scannedSections d, ∃ r ∈ codeFields 0 (code sect), _))

/-- What the scan is for: the position's displacement, if it is a field. -/
def fieldStep (st : Patched) (p : Place) : Option Patched := if IsField code p then patchPosition d p.1 st p.2 else some st

def Stray (st : Patched) (p : Place) : Prop := ¬ IsField code p ∧ Taken d st.buf p

instance (st : Patched) (p : Place) : Decidable (Stray d code st p) := inferInstanceAs (Decidable (_ ∧ _))

/-- Nothing but fields is taken for a displacement, when the fields before have been rewritten. -/
def NoStray (st : Patched) : Prop :=
  getCodeToDataDelta d ≠ 0 → Guarded (fieldStep d code) (fun st p => ¬ Stray d code st p) st (places d)

/-- Every byte that was written to since `st` is in a field. -/
def WritesFields (st st' : Patched) : Prop :=
  ∀ e ∈ st'.rewritten.drop st.rewritten.length, ∀ x, e.2 ≤ x → x < e.2 + 4 → InField d code x

/-- Every byte that is not in a field is as it was. -/
def KeepsRest (st st' : Patched) : Prop := ∀ x, ¬ InField d code x → st'.buf x = st.buf x

end

/-! ## Fields -/

theorem dispBytes_riprel {modrm : UInt8} (h : modrm &&& 0xC7 = 0x05) (sib : Option UInt8) : dispBytes modrm sib = 4 := by
  have hbits : ∀ n < 256, n &&& 0xC7 = 5 → n >>> 6 = 0 ∧ n &&& 7 = 5 := by decide +kernel
  have hnat : modrm.toNat &&& 0xC7 = 5 := congrArg UInt8.toNat h
  obtain ⟨hmod, hrm⟩ := hbits modrm.toNat modrm.toNat_lt hnat
  have hmod' : modrm >>> 6 = 0 := UInt8.toNat_inj.mp hmod
  have hrm' : modrm &&& 7 = 5 := UInt8.toNat_inj.mp hrm
  simp [dispBytes, hmod', hrm']

theorem Insn.field_bounds {i : Insn} {r : Nat} (h : i.field = some r) : 2 ≤ r ∧ r + 4 ≤ i.bytes.length := by
  have hlead := List.length_pos_iff.mpr i.lead_ok
  unfold field at h
  cases ho : i.operand with
  | none => simp [ho] at h
  | some o =>
    simp only [ho, Option.any_some] at h
    split at h
    · rename_i hriprel
      obtain rfl := Option.some.inj h
      have hdisp : o.disp.length = 4 := o.disp_length.trans (dispBytes_riprel (of_decide_eq_true hriprel) _)
      simp only [bytes, operandBytes, ho, List.length_append, List.length_cons]
      omega
    · cases h

theorem codeFields_bounds : ∀ {code : List Insn} {start r : Nat}, r ∈ codeFields start code →
    start + 2 ≤ r ∧ r + 4 ≤ start + (codeBytes code).length := by
  intro code
  induction code with
  | nil => intro start r h; cases h
  | cons i code ih =>
    intro start r h
    have hlen : (codeBytes (i :: code)).length = i.bytes.length + (codeBytes code).length := by
      simp [codeBytes]
    rcases List.mem_append.mp h with h | h
    · obtain ⟨r', hr', rfl⟩ := Option.map_eq_some_iff.mp (Option.mem_toList.mp h)
      have := Insn.field_bounds hr'
      omega
    · have := ih h
      omega

/-- There are two bytes at least between two fields. -/
theorem codeFields_apart : ∀ (code : List Insn) (start : Nat), (codeFields start code).Pairwise fun r r' => r + 6 ≤ r' := by
  intro code
  induction code with
  | nil => exact fun _ => List.Pairwise.nil
  | cons i code ih =>
    intro start
    refine List.pairwise_append.mpr ⟨?_, ih _, ?_⟩
    · cases i.field <;> simp
    · intro r hr r' hr'
      obtain ⟨r0, hr0, rfl⟩ := Option.map_eq_some_iff.mp (Option.mem_toList.mp hr)
      have := Insn.field_bounds hr0
      have := codeFields_bounds hr'
      omega

/-- Four bytes that are in fields are a field. -/
theorem mem_codeFields_of_covered {code : List Insn} {start w : Nat}
    (h : ∀ x, w ≤ x → x < w + 4 → ∃ r ∈ codeFields start code, r ≤ x ∧ x < r + 4) : w ∈ codeFields start code := by
  have hap := (codeFields_apart code start).imp fun {r r'} h => show r + 6 ≤ r' ∨ r' + 6 ≤ r from .inl h
  have hsymm : Std.Symm fun r r' : Nat => r + 6 ≤ r' ∨ r' + 6 ≤ r := ⟨fun _ _ => Or.symm⟩
  obtain ⟨r, hr, hlo, hhi⟩ := h w (by omega) (by omega)
  by_cases heq : w = r
  · exact heq ▸ hr
  · -- the byte after this field is among the four, and it is in no field
    obtain ⟨r', hr', hlo', hhi'⟩ := h (r + 4) (by omega) (by omega)
    have := hap.forall hr hr' (by omega)
    omega

variable {p : Place}

section

variable {d : DylibInfo} {code : Section64 → List Insn} {buf : Mem}

theorem places_bounds (h : p ∈ places d) : p.1 ∈ scannedSections d ∧ p.2 + 4 ≤ p.1.size.toNat := by
  obtain ⟨sect, hsect, hp⟩ := List.mem_flatMap.mp h
  obtain ⟨pos, hpos, rfl⟩ := List.mem_map.mp hp
  have := List.mem_range.mp hpos
  refine ⟨hsect, ?_⟩
  show pos + 4 ≤ sect.size.toNat
  omega

theorem HoldsCode.isField_of_covered (hc : HoldsCode d code buf) (hp : p ∈ places d)
    (h : ∀ x, p.offset d ≤ x → x < p.offset d + 4 → InField d code x) : IsField code p := by
  obtain ⟨hsect, hroom⟩ := places_bounds hp
  refine mem_codeFields_of_covered fun x hlo hhi => ?_
  unfold Place.offset at h
  obtain ⟨sect, hmem, r, hr, hrlo, hrhi⟩ := h (textOffset d p.1 + x) (by omega) (by omega)
  obtain rfl : sect = p.1 := by
    by_contra hne
    -- a field of another section is in that section
    have hin := codeFields_bounds hr
    rw [hc.length sect hmem] at hin
    have hapart := hc.apart.forall hmem hsect hne
    unfold SectionsApart at hapart
    omega
  exact ⟨r, hr, by omega, by omega⟩

/-- The positions that follow are further on in the section, or in another section. -/
theorem HoldsCode.places_ordered (hc : HoldsCode d code buf) : (places d).Pairwise fun p q =>
    (p.1 = q.1 ∧ p.2 < q.2) ∨ SectionsApart d p.1 q.1 := by
  refine List.pairwise_flatMap.mpr ⟨fun sect _ => ?_, hc.apart.imp fun {s t} hap p hp q hq => ?_⟩
  · rw [List.pairwise_map]
    exact List.pairwise_lt_range.imp fun h => .inl ⟨rfl, h⟩
  · obtain ⟨_, _, rfl⟩ := List.mem_map.mp hp
    obtain ⟨_, _, rfl⟩ := List.mem_map.mp hq
    exact .inr hap

end

/-! ## What is written -/

/-- From `st` to `st'` the fields `new` have been written to. -/
structure Wrote (d : DylibInfo) (new : List Nat) (st st' : Patched) : Prop where
  log : st'.rewritten = st.rewritten ++ new.map (d, ·)
  rest : ∀ x, (∀ w ∈ new, x < w ∨ w + 4 ≤ x) → st'.buf x = st.buf x

namespace Wrote

variable {d : DylibInfo} {st st' st'' : Patched}

theorem refl (d : DylibInfo) (st : Patched) : Wrote d [] st st := ⟨(List.append_nil _).symm, fun _ _ => rfl⟩

variable {new : List Nat}

theorem trans {new' : List Nat} (h : Wrote d new st st') (h' : Wrote d new' st' st'') : Wrote d (new ++ new') st st'' where
  log := by rw [h'.log, h.log, List.map_append, List.append_assoc]
  rest x hx := by
    rw [h'.rest x fun w hw => hx w (List.mem_append_right _ hw), h.rest x fun w hw => hx w (List.mem_append_left _ hw)]

theorem of_patchField {field : Nat} (h : patchField d field st = some st') : Wrote d [field] st st' := by
  obtain ⟨newDisp, -, rfl⟩ := Option.map_eq_some_iff.mp h
  exact ⟨rfl, fun x hx => writeLE_outside _ (hx field List.mem_cons_self)⟩

/-- A position is written to if it is taken for a displacement. -/
theorem of_patchPosition (h : patchPosition d p.1 st p.2 = some st') :
    Wrote d (if Taken d st.buf p then [p.offset d] else []) st st' := by
  rw [patchPosition_eq] at h
  split at h
  · rename_i ht
    rw [if_pos ht]
    exact of_patchField h
  · rename_i ht
    rw [if_neg ht, ← Option.some.inj h]
    exact refl d st

theorem of_run : ∀ {l : List Place} {st st' : Patched}, l.foldlM (fun st p => patchPosition d p.1 st p.2) st = some st' →
    ∃ new, Wrote d new st st' ∧ ∀ w ∈ new, ∃ p ∈ l, w = p.offset d := by
  intro l
  induction l with
  | nil =>
    intro st st' h
    obtain rfl := Option.some.inj h
    exact ⟨[], refl d st, by simp⟩
  | cons p l ih =>
    intro st st' h
    rw [List.foldlM_cons] at h
    obtain ⟨st1, h1, h⟩ := Option.bind_eq_some_iff.mp h
    obtain ⟨new, hnew, hplaces⟩ := ih h
    refine ⟨_, (of_patchPosition h1).trans hnew, fun w hw => ?_⟩
    rcases List.mem_append.mp hw with hw | hw
    · split at hw
      · exact ⟨p, List.mem_cons_self, List.mem_singleton.mp hw⟩
      · cases hw
    · obtain ⟨q, hq, hwq⟩ := hplaces w hw
      exact ⟨q, List.mem_cons_of_mem _ hq, hwq⟩

variable {code : Section64 → List Insn}

/-- What `WritesFields` says of it. -/
theorem writesFields_iff (h : Wrote d new st st') :
    WritesFields d code st st' ↔ ∀ w ∈ new, ∀ x, w ≤ x → x < w + 4 → InField d code x := by
  unfold WritesFields
  rw [h.log, List.drop_left]
  simp

theorem keepsRest (h : Wrote d new st st') (hw : WritesFields d code st st') : KeepsRest d code st st' := by
  intro x hx
  refine h.rest x fun w hmem => ?_
  by_contra hin
  exact hx (h.writesFields_iff.mp hw w hmem x (by omega) (by omega))

end Wrote

/-! ## Which bytes an added amount changes -/

/-- The lowest byte of a displacement that changes when `delta` is added. -/
def lowByte (delta : Int64) : Nat :=
  let n := delta.toUInt64.toNat
  if n % 256 ≠ 0 then 0 else if n % 256 ^ 2 ≠ 0 then 1 else if n % 256 ^ 3 ≠ 0 then 2 else 3

theorem lowByte_lt (delta : Int64) : lowByte delta < 4 := by
  unfold lowByte
  grind

theorem lowByte_spec {delta : Int64} (h : delta.toUInt64.toNat % 2 ^ 32 ≠ 0) :
    delta.toUInt64.toNat % 256 ^ lowByte delta = 0 ∧ delta.toUInt64.toNat % 256 ^ (lowByte delta + 1) ≠ 0 := by
  unfold lowByte
  generalize delta.toUInt64.toNat = n at h
  dsimp only
  split
  · omega
  · split
    · omega
    · split
      · omega
      · omega

theorem toUInt32_signExtend32 (x : UInt32) : (signExtend32 x).toUInt32 = x := by
  unfold signExtend32
  apply UInt32.toBitVec_inj.mp
  show (x.toBitVec.signExtend 64).setWidth 32 = x.toBitVec
  ext i hi
  simp [BitVec.getLsbD_signExtend, hi]
  omega

theorem toNat_byte (m : Mem) (a : Nat) {k : Nat} (hk : k < 4) : (m (a + k)).toNat = (read32 m a).toNat / 256 ^ k % 256 := by
  have h0 := (m a).toNat_lt
  have h1 := (m (a + 1)).toNat_lt
  have h2 := (m (a + 2)).toNat_lt
  have h3 := (m (a + 3)).toNat_lt
  have hval : (read32 m a).toNat = (m a).toNat + 256 * ((m (a + 1)).toNat + 256 * ((m (a + 2)).toNat + 256 * (m (a + 3)).toNat)) := by
    rw [read32, UInt32.toNat_ofNat']
    simp only [readLE, Nat.add_assoc, Nat.reduceAdd]
    omega
  rw [hval]
  interval_cases k
  · rw [Nat.add_zero]
    omega
  all_goals omega

/-- The sum in 32 bits; a sum that fits is not the displacement it was. -/
theorem addDisp32Checked_toNat {disp newDisp : UInt32} {delta : Int64} (h : addDisp32Checked disp delta = some newDisp)
    (hne : delta ≠ 0) : newDisp.toNat = (disp.toNat + delta.toUInt64.toNat) % 2 ^ 32 ∧ delta.toUInt64.toNat % 2 ^ 32 ≠ 0 := by
  have hsum := sound_addDisp32Checked h
  have hnat : newDisp.toNat = (disp.toNat + delta.toUInt64.toNat) % 2 ^ 32 := by
    have hdisp : (signExtend32 disp).toNat % 2 ^ 32 = disp.toNat := congrArg UInt32.toNat (toUInt32_signExtend32 disp)
    have h32 : (signExtend32 newDisp).toNat % 2 ^ 32 = newDisp.toNat := congrArg UInt32.toNat (toUInt32_signExtend32 newDisp)
    rw [hsum, UInt64.toNat_add] at h32
    omega
  refine ⟨hnat, fun hzero => hne ?_⟩
  have hsame : newDisp = disp := by
    apply UInt32.toNat_inj.mp
    have := disp.toNat_lt
    omega
  rw [hsame] at hsum
  have hdelta : delta.toUInt64 = 0 := by
    have := hsum.symm
    rwa [UInt64.add_eq_left] at this
  exact congrArg UInt64.toInt64 hdelta

theorem patchField_bytes {d : DylibInfo} {field : Nat} {st st' : Patched} (h : patchField d field st = some st')
    (hne : getCodeToDataDelta d ≠ 0) : st'.buf (field + lowByte (getCodeToDataDelta d)) ≠ st.buf (field + lowByte (getCodeToDataDelta d)) ∧
      ∀ x < field + lowByte (getCodeToDataDelta d), st'.buf x = st.buf x := by
  obtain ⟨newDisp, hadd, rfl⟩ := Option.map_eq_some_iff.mp h
  obtain ⟨hnew, hdelta⟩ := addDisp32Checked_toNat hadd hne
  have hread : read32 (write32 st.buf field newDisp) field = newDisp := read32_write32 _ _ _
  have hold := fun k (hk : k < 4) => toNat_byte st.buf field hk
  have hbyte := fun k (hk : k < 4) => toNat_byte (write32 st.buf field newDisp) field hk
  rw [hread, hnew] at hbyte
  have hlt := lowByte_lt (getCodeToDataDelta d)
  obtain ⟨hbelow, hat⟩ := lowByte_spec hdelta
  generalize lowByte (getCodeToDataDelta d) = low at hlt hbelow hat ⊢
  refine ⟨fun heq => ?_, fun x hx => ?_⟩
  · have h0 := hold low hlt
    have h1 := hbyte low hlt
    have heq : (write32 st.buf field newDisp (field + low)).toNat = (st.buf (field + low)).toNat := congrArg UInt8.toNat heq
    rw [heq, h0] at h1
    interval_cases low <;> omega
  · by_cases hin : field ≤ x
    · obtain ⟨k, rfl⟩ := Nat.exists_eq_add_of_le hin
      apply UInt8.toNat_inj.mp
      have hk : k < low := by omega
      show (write32 st.buf field newDisp (field + k)).toNat = (st.buf (field + k)).toNat
      rw [hold k (by omega), hbyte k (by omega)]
      interval_cases low <;> interval_cases k <;> omega
    · exact writeLE_outside _ (by omega)

/-! ## The whole scan -/

section

variable {d : DylibInfo} {code : Section64 → List Insn}

theorem fieldStep_of_isField (h : IsField code p) (st : Patched) : fieldStep d code st p = patchPosition d p.1 st p.2 := if_pos h

theorem fieldStep_of_not (h : ¬ IsField code p) (st : Patched) : fieldStep d code st p = some st := if_neg h

theorem inField_of_isField (hp : p ∈ places d) (h : IsField code p) {x : Nat} (hlo : p.offset d ≤ x)
    (hhi : x < p.offset d + 4) : InField d code x :=
  ⟨p.1, (places_bounds hp).1, p.2, h, hlo, hhi⟩

/-- Without strays, what is written to is fields. -/
theorem writes_of_guarded : ∀ {l : List Place} {st st' : Patched},
    Guarded (fieldStep d code) (fun st p => ¬ Stray d code st p) st l →
    l.foldlM (fun st p => patchPosition d p.1 st p.2) st = some st' →
    ∃ new, Wrote d new st st' ∧ ∀ w ∈ new, ∃ p ∈ l, IsField code p ∧ w = p.offset d := by
  intro l
  induction l with
  | nil =>
    intro st st' _ h
    obtain rfl := Option.some.inj h
    exact ⟨[], .refl d st, by simp⟩
  | cons p l ih =>
    intro st st' hg h
    rw [List.foldlM_cons] at h
    obtain ⟨st1, h1, h⟩ := Option.bind_eq_some_iff.mp h
    have hwrote := Wrote.of_patchPosition h1
    by_cases hfield : IsField code p
    · obtain ⟨new, hnew, hfields⟩ := ih (hg.2 st1 ((fieldStep_of_isField hfield st).trans h1)) h
      refine ⟨_, hwrote.trans hnew, fun w hw => ?_⟩
      rcases List.mem_append.mp hw with hw | hw
      · split at hw
        · exact ⟨p, List.mem_cons_self, hfield, List.mem_singleton.mp hw⟩
        · cases hw
      · obtain ⟨q, hq, hqw⟩ := hfields w hw
        exact ⟨q, List.mem_cons_of_mem _ hq, hqw⟩
    · have htaken : ¬ Taken d st.buf p := fun ht => hg.1 ⟨hfield, ht⟩
      rw [patchPosition_eq, if_neg htaken] at h1
      obtain rfl := Option.some.inj h1
      obtain ⟨new, hnew, hfields⟩ := ih (hg.2 st (fieldStep_of_not hfield st)) h
      refine ⟨new, hnew, fun w hw => ?_⟩
      obtain ⟨q, hq, hqw⟩ := hfields w hw
      exact ⟨q, List.mem_cons_of_mem _ hq, hqw⟩

/-- A stray is written to. -/
theorem guarded_of_writes {buf : Mem} (hc : HoldsCode d code buf) : ∀ {l : List Place} {st st' : Patched}, (∀ p ∈ l, p ∈ places d) →
    l.foldlM (fun st p => patchPosition d p.1 st p.2) st = some st' → WritesFields d code st st' →
    Guarded (fieldStep d code) (fun st p => ¬ Stray d code st p) st l := by
  intro l
  induction l with
  | nil => exact fun _ _ _ => trivial
  | cons p l ih =>
    intro st st' hl h hw
    rw [List.foldlM_cons] at h
    obtain ⟨st1, h1, h⟩ := Option.bind_eq_some_iff.mp h
    obtain ⟨new, hnew, -⟩ := Wrote.of_run h
    have hwrote := Wrote.of_patchPosition h1
    rw [(hwrote.trans hnew).writesFields_iff] at hw
    have hrest := ih (fun q hq => hl q (List.mem_cons_of_mem _ hq)) h
      (hnew.writesFields_iff.mpr fun w hmem => hw w (List.mem_append_right _ hmem))
    by_cases hfield : IsField code p
    · refine ⟨fun hstray => hstray.1 hfield, fun st2 h2 => ?_⟩
      rw [fieldStep_of_isField hfield, h1] at h2
      exact Option.some.inj h2 ▸ hrest
    · have htaken : ¬ Taken d st.buf p := by
        intro ht
        rw [if_pos ht] at hw
        exact hfield (hc.isField_of_covered (hl p List.mem_cons_self) (hw _ List.mem_cons_self))
      rw [patchPosition_eq, if_neg htaken] at h1
      obtain rfl := Option.some.inj h1
      refine ⟨fun hstray => htaken hstray.2, fun st2 h2 => ?_⟩
      rw [fieldStep_of_not hfield] at h2
      exact Option.some.inj h2 ▸ hrest

/-- What comes later does not change the byte at which a position begins to change. -/
theorem run_keeps_low (hroom : p.2 + 4 ≤ p.1.size.toNat) (hne : getCodeToDataDelta d ≠ 0) {l : List Place}
    (hl : ∀ q ∈ l, q ∈ places d ∧ ((p.1 = q.1 ∧ p.2 < q.2) ∨ SectionsApart d p.1 q.1)) {st st' : Patched}
    (h : l.foldlM (fun st p => patchPosition d p.1 st p.2) st = some st') :
    st'.buf (p.offset d + lowByte (getCodeToDataDelta d)) = st.buf (p.offset d + lowByte (getCodeToDataDelta d)) := by
  have hlow := lowByte_lt (getCodeToDataDelta d)
  refine Sound.foldlM_of_mem (P := fun s => s.buf (p.offset d + lowByte (getCodeToDataDelta d)) =
    st.buf (p.offset d + lowByte (getCodeToDataDelta d))) (fun q hq s hs s' hs' => ?_) rfl st' h
  obtain ⟨hplace, horder⟩ := hl q hq
  have hqroom := (places_bounds hplace).2
  rw [patchPosition_eq] at hs'
  split at hs'
  · rw [← hs]
    rcases horder with ⟨hsect, hlt⟩ | hapart
    · refine (patchField_bytes hs' hne).2 _ ?_
      unfold Place.offset
      rw [hsect]
      omega
    · refine (Wrote.of_patchField hs').rest _ fun w hw => ?_
      rw [List.mem_singleton.mp hw]
      unfold SectionsApart at hapart
      unfold Place.offset
      omega
  · rw [← Option.some.inj hs', hs]

/-- A stray that begins to change outside the fields shows in the end. -/
theorem guarded_of_keepsRest (hne : getCodeToDataDelta d ≠ 0) : ∀ {l : List Place} {st st' : Patched}, (∀ p ∈ l, p ∈ places d) →
    l.Pairwise (fun p q => (p.1 = q.1 ∧ p.2 < q.2) ∨ SectionsApart d p.1 q.1) →
    Guarded (fieldStep d code) (fun st p => Stray d code st p → ¬ InField d code (p.offset d + lowByte (getCodeToDataDelta d))) st l →
    l.foldlM (fun st p => patchPosition d p.1 st p.2) st = some st' → KeepsRest d code st st' →
    Guarded (fieldStep d code) (fun st p => ¬ Stray d code st p) st l := by
  intro l
  induction l with
  | nil => exact fun _ _ _ _ _ => trivial
  | cons p l ih =>
    intro st st' hl hord hg h hkeep
    rw [List.foldlM_cons] at h
    obtain ⟨st1, h1, h⟩ := Option.bind_eq_some_iff.mp h
    obtain ⟨hhead, hord⟩ := List.pairwise_cons.mp hord
    have hl' : ∀ q ∈ l, q ∈ places d := fun q hq => hl q (List.mem_cons_of_mem _ hq)
    have hp := hl p List.mem_cons_self
    by_cases hfield : IsField code p
    · -- a field is rewritten inside itself
      have hstep : fieldStep d code st p = some st1 := (fieldStep_of_isField hfield st).trans h1
      have hkeep1 : KeepsRest d code st1 st' := by
        intro x hx
        rw [hkeep x hx]
        refine ((Wrote.of_patchPosition h1).rest x fun w hw => ?_).symm
        split at hw
        · rw [List.mem_singleton.mp hw]
          by_contra hin
          exact hx (inField_of_isField hp hfield (by omega) (by omega))
        · cases hw
      refine ⟨fun hstray => hstray.1 hfield, fun st2 h2 => ?_⟩
      rw [hstep] at h2
      exact Option.some.inj h2 ▸ ih hl' hord (hg.2 st1 hstep) h hkeep1
    · have hstep : fieldStep d code st p = some st := fieldStep_of_not hfield st
      have htaken : ¬ Taken d st.buf p := by
        intro ht
        rw [patchPosition_eq, if_pos ht] at h1
        have hlater := run_keeps_low (places_bounds hp).2 hne (fun q hq => ⟨hl' q hq, hhead q hq⟩) h
        exact (patchField_bytes h1 hne).1 (hlater.symm.trans (hkeep _ (hg.1 ⟨hfield, ht⟩)))
      rw [patchPosition_eq, if_neg htaken] at h1
      obtain rfl := Option.some.inj h1
      refine ⟨fun hstray => htaken hstray.2, fun st2 h2 => ?_⟩
      rw [hstep] at h2
      exact Option.some.inj h2 ▸ ih hl' hord (hg.2 st hstep) h hkeep

end

/-- The scan writes to displacement fields alone exactly if it takes nothing else for one; bytes
    outside them are then unchanged, and only then if every stray begins to change outside. -/
theorem text_scan_frame (d : DylibInfo) (code : Section64 → List Insn) {st st' : Patched} (hc : HoldsCode d code st.buf)
    (hrun : patchTextRipRefs d st = some st') :
    (WritesFields d code st st' ↔ NoStray d code st) ∧ (NoStray d code st → KeepsRest d code st st') ∧
    (Guarded (fieldStep d code)
        (fun st p => Stray d code st p → ¬ InField d code (p.offset d + lowByte (getCodeToDataDelta d))) st (places d) →
      KeepsRest d code st st' → NoStray d code st) := by
  by_cases hne : getCodeToDataDelta d = 0
  · -- nothing is scanned
    rw [patchTextRipRefs, if_pos hne] at hrun
    obtain rfl := Option.some.inj hrun
    have hno : NoStray d code st := fun h => absurd hne h
    exact ⟨⟨fun _ => hno, fun _ => (Wrote.refl d st).writesFields_iff.mpr (by simp)⟩, fun _ _ _ => rfl, fun _ _ => hno⟩
  · rw [patchTextRipRefs_eq hne] at hrun
    have hwrites : NoStray d code st → ∃ new, Wrote d new st st' ∧ WritesFields d code st st' := by
      intro hno
      obtain ⟨new, hnew, hfields⟩ := writes_of_guarded (hno hne) hrun
      refine ⟨new, hnew, hnew.writesFields_iff.mpr fun w hw x hlo hhi => ?_⟩
      obtain ⟨p, hp, hfield, rfl⟩ := hfields w hw
      exact inField_of_isField hp hfield hlo hhi
    refine ⟨⟨fun hw _ => guarded_of_writes hc (fun _ h => h) hrun hw, fun hno => ?_⟩, fun hno => ?_, ?_⟩
    · obtain ⟨-, -, hw⟩ := hwrites hno
      exact hw
    · obtain ⟨new, hnew, hw⟩ := hwrites hno
      exact hnew.keepsRest hw
    · exact fun hg hkeep _ => guarded_of_keepsRest hne (fun _ h => h) hc.places_ordered hg hrun hkeep

section Example

/-- `movq 0x1809(%rip), %rax` -/
def movq : Insn where
  lead := [0x48, 0x8b]
  operand := some ⟨0x05, none, [0x09, 0x18, 0x00, 0x00], by decide, by decide⟩
  imm := []
  lead_ok := by decide

theorem text_scan_frame_movq : ∃ d ∈ (assignAddresses (loadedTwo 0x2000)).2, ∃ st',
    patchTextRipRefs d ⟨movBuffer 0x1809, []⟩ = some st' ∧ read32 st'.buf 0x1803 = 0x60000809 ∧
      KeepsRest d (fun _ => [movq]) ⟨movBuffer 0x1809, []⟩ st' := by
  obtain ⟨d, hd, hbytes, hlength, hapart, hno, hrun⟩ : ∃ d ∈ (assignAddresses (loadedTwo 0x2000)).2,
      (∀ sect ∈ scannedSections d, bytesAt (movBuffer 0x1809) (textOffset d sect) (codeBytes [movq]) = true) ∧
      (∀ sect ∈ scannedSections d, (codeBytes [movq]).length = sect.size.toNat) ∧
      (scannedSections d).Pairwise (SectionsApart d) ∧
      Guarded (fieldStep d fun _ => [movq]) (fun st p => ¬ Stray d (fun _ => [movq]) st p) ⟨movBuffer 0x1809, []⟩ (places d) ∧
      (patchTextRipRefs d ⟨movBuffer 0x1809, []⟩).map (fun st => read32 st.buf 0x1803) = some 0x60000809 := by
    decide
  obtain ⟨st', hst', hread⟩ := Option.map_eq_some_iff.mp hrun
  exact ⟨d, hd, st', hst', hread, (text_scan_frame d (fun _ => [movq]) ⟨hbytes, hlength, hapart⟩ hst').2.1 fun _ => hno⟩

/-- `movabs $0x010000000800058b, %rax` -/
def movabs : Insn where
  lead := [0x48, 0xb8]
  operand := none
  imm := [0x8b, 0x05, 0x00, 0x08, 0x00, 0x00, 0x00, 0x01]
  lead_ok := by decide

def ret : Insn := ⟨[0xc3], none, [], by decide⟩

/-- A dylib with these two instructions and a page of data. -/
def movabsDylib : List DylibInfo := (assignAddresses (loadDylib [.idDylib (cstr "/t"),
  .segment ⟨segText, 0, 0x1000, 0, 0x1000, 5, [⟨cstr "__text", 0x800, 11, 0, 0⟩]⟩,
  .segment ⟨cstr "__DATA", 0x1000, 0x1000, 0x1000, 0x1000, 3, []⟩] []).toList).2

def movabsBuffer : Mem := fun x => (codeBytes [movabs, ret]).getD (x - 0x1800) 0

/-- The immediate's first bytes read as `mov` with a displacement to the data. No instruction here
    has a RIP-relative operand, and the constant is changed. -/
theorem immediate_is_rewritten : ∃ d ∈ movabsDylib, ∃ st', HoldsCode d (fun _ => [movabs, ret]) movabsBuffer ∧
    patchTextRipRefs d ⟨movabsBuffer, []⟩ = some st' ∧ codeFields 0 [movabs, ret] = [] ∧
    read64 movabsBuffer 0x1802 = 0x010000000800058b ∧ read64 st'.buf 0x1802 = 0x01005ffff800058b ∧
    ¬ KeepsRest d (fun _ => [movabs, ret]) ⟨movabsBuffer, []⟩ st' := by
  obtain ⟨d, hd, hbytes, hlength, hapart, hrun⟩ : ∃ d ∈ movabsDylib,
      (∀ sect ∈ scannedSections d, bytesAt movabsBuffer (textOffset d sect) (codeBytes [movabs, ret]) = true) ∧
      (∀ sect ∈ scannedSections d, (codeBytes [movabs, ret]).length = sect.size.toNat) ∧
      (scannedSections d).Pairwise (SectionsApart d) ∧
      (patchTextRipRefs d ⟨movabsBuffer, []⟩).map (fun st => (read64 st.buf 0x1802, st.buf 0x1805)) =
        some (0x01005ffff800058b, 0xf8) := by
    decide
  obtain ⟨st', hst', hread⟩ := Option.map_eq_some_iff.mp hrun
  obtain ⟨hword, hbyte⟩ := Prod.mk.inj hread
  refine ⟨d, hd, st', ⟨hbytes, hlength, hapart⟩, hst', rfl, by decide, hword, fun hkeep => ?_⟩
  have hsame := hkeep 0x1805 (by rintro ⟨_, _, r, hr, _⟩; exact absurd hr (by simp [codeFields, Insn.field, movabs, ret]))
  rw [hbyte] at hsame
  exact absurd hsame (by decide)

end Example

end Panthera.Cache
