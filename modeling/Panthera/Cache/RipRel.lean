/-
  Panthera.Cache.RipRel — finding the RIP-relative operand before a displacement
  (`build_shared_cache_real.c`: `is_legacy_prefix`, `is_onebyte_riprel_opcode`,
  `is_0f_riprel_opcode`, `is_0f38_riprel_opcode`, `decode_riprel_disp32`).

  The decoder is given the place of four bytes and looks back from there. It reads the bytes
  before them as shorter instructions first: without the prefixes, then with one, then with
  two. What a reading that was given up has left in `*trailingImm` stays there.

  An instruction is modelled by its encoding (`Instruction`), with the immediate that the
  processor takes for it. Proved: the decoder finds the right number of immediate bytes
  except when the operand-size prefix shortens them and there is room in the section for the
  longer ones (`decodes_iff`).
-/

import Panthera.Lib.Bytes

namespace Panthera.Cache

open Lib.Bytes

/-! ## The decoder -/

/-- What is tried with `*trailingImm`: whether it succeeds, and what it leaves there. -/
abbrev Attempt := UInt32 → Bool × UInt32

def accept : Attempt := fun trailingImm => (true, trailingImm)

def guarded (c : Bool) (a : Attempt) : Attempt := fun trailingImm => if c then a trailingImm else (false, trailingImm)

/-- One after the other, until one succeeds. -/
def firstOf : List Attempt → Attempt
  | [], trailingImm => (false, trailingImm)
  | a :: rest, trailingImm => if (a trailingImm).1 then a trailingImm else firstOf rest (a trailingImm).2

def isLegacyPrefix (byte : UInt8) : Bool := byte = 0x66 || byte = 0xf2 || byte = 0xf3

def isRex (byte : UInt8) : Bool := byte &&& 0xF0 = 0x40

/-- The case labels for which no immediate follows. -/
def plainOpcodes : List UInt8 :=
  [0x00, 0x01, 0x02, 0x03, 0x08, 0x09, 0x0a, 0x0b, 0x10, 0x11, 0x12, 0x13, 0x18, 0x19, 0x1a, 0x1b, 0x20, 0x21, 0x22, 0x23,
    0x28, 0x29, 0x2a, 0x2b, 0x30, 0x31, 0x32, 0x33, 0x38, 0x39, 0x3a, 0x3b, 0x63, 0x84, 0x85, 0x86, 0x87, 0x88, 0x89, 0x8a,
    0x8b, 0x8d, 0xfe, 0xff]

def isOnebyteRiprelOpcode (opc modrm : UInt8) (operand16 : Bool) (pos sectSize : Nat) : Attempt := fun trailingImm =>
  let fits (imm : UInt32) : Bool × UInt32 := (pos + 4 + imm.toNat ≤ sectSize, imm)
  if modrm &&& 0xC7 ≠ 0x05 then (false, trailingImm)
  else if opc ∈ plainOpcodes then (true, trailingImm)
  else if opc = 0x80 ∨ opc = 0x83 ∨ opc = 0xc6 then fits 1
  else if opc = 0x81 ∨ opc = 0xc7 then fits (if operand16 then 2 else 4)
  else if opc = 0xf6 then fits (if (modrm >>> 3) &&& 7 ≤ 1 then 1 else 0)
  else if opc = 0xf7 then fits (if (modrm >>> 3) &&& 7 ≤ 1 then (if operand16 then 2 else 4) else 0)
  else (false, trailingImm)

def is0fRiprelOpcode (_opc modrm : UInt8) : Bool := modrm &&& 0xC7 = 0x05

def is0f38RiprelOpcode (_opc modrm : UInt8) : Bool := modrm &&& 0xC7 = 0x05

section

variable (back : Nat → UInt8) (pos sectSize : Nat)

/-- The blocks of `decode_riprel_disp32`, one for each number of bytes that are looked back at;
    `back n` is `sectBuf[pos - n]`. -/
def lookBack2 : Attempt := firstOf [
  guarded (back 2 = 0xff && (back 1 = 0x15 || back 1 = 0x25 || back 1 = 0x35)) accept,
  isOnebyteRiprelOpcode (back 2) (back 1) false pos sectSize]

def lookBack3 : Attempt := firstOf [
  guarded (isRex (back 3) || isLegacyPrefix (back 3)) (isOnebyteRiprelOpcode (back 2) (back 1) (back 3 = 0x66) pos sectSize),
  guarded (back 3 = 0x0f && is0fRiprelOpcode (back 2) (back 1)) accept]

def lookBack4 : Attempt := firstOf [
  guarded (((isRex (back 4) && back 3 = 0x0f) || (isLegacyPrefix (back 4) && back 3 = 0x0f)) &&
    is0fRiprelOpcode (back 2) (back 1)) accept,
  guarded (isLegacyPrefix (back 4) && isRex (back 3)) (isOnebyteRiprelOpcode (back 2) (back 1) (back 4 = 0x66) pos sectSize),
  guarded (back 4 = 0x0f && back 3 = 0x38 && is0f38RiprelOpcode (back 2) (back 1)) accept]

def lookBack5 : Attempt := firstOf [
  guarded (isLegacyPrefix (back 5) && isRex (back 4) && back 3 = 0x0f && is0fRiprelOpcode (back 2) (back 1)) accept,
  guarded (((isRex (back 5) && back 4 = 0x0f && back 3 = 0x38) || (isLegacyPrefix (back 5) && back 4 = 0x0f && back 3 = 0x38)) &&
    is0f38RiprelOpcode (back 2) (back 1)) accept]

def lookBack6 : Attempt :=
  guarded (isLegacyPrefix (back 6) && isRex (back 5) && back 4 = 0x0f && back 3 = 0x38 && is0f38RiprelOpcode (back 2) (back 1)) accept

end

/-- Whether the four bytes at `pos` are a displacement, and `*trailingImm`. -/
def decodeRiprelDisp32 (sectBuf : Mem) (pos sectSize : Nat) : Bool × UInt32 :=
  let back (n : Nat) : UInt8 := sectBuf (pos - n)
  firstOf [guarded (2 ≤ pos) (lookBack2 back pos sectSize), guarded (3 ≤ pos) (lookBack3 back pos sectSize),
    guarded (4 ≤ pos) (lookBack4 back pos sectSize), guarded (5 ≤ pos) (lookBack5 back), guarded (6 ≤ pos) (lookBack6 back)] 0

/-- The displacement as a signed number, in 64 bits. -/
def signExtend32 (disp : UInt32) : UInt64 := disp.toInt32.toInt64.toUInt64

/-- `patch_text_rip_refs`'s `target`, for a displacement at `instrDispAddr`. -/
def riprelTarget (instrDispAddr : UInt64) (disp trailingImm : UInt32) : UInt64 :=
  instrDispAddr + 4 + trailingImm.toUInt64 + signExtend32 disp

/-! ## The instructions -/

/-- The immediate that the processor takes after the displacement: a byte, a word of the
    operand size, or none. The group opcodes F6 and F7 take one for TEST only. -/
def immediateBytes (operand16 : Bool) (opcode modrm : UInt8) : Nat :=
  let reg := (modrm >>> 3) &&& 7
  let operand := if operand16 then 2 else 4
  if opcode = 0x80 ∨ opcode = 0x83 ∨ opcode = 0xc6 then 1
  else if opcode = 0x81 ∨ opcode = 0xc7 then operand
  else if opcode = 0xf6 then (if reg ≤ 1 then 1 else 0)
  else if opcode = 0xf7 then (if reg ≤ 1 then operand else 0)
  else 0

/-- The immediate has the operand size. -/
def OperandSized (opcode modrm : UInt8) : Prop :=
  opcode = 0x81 ∨ opcode = 0xc7 ∨ (opcode = 0xf7 ∧ (modrm >>> 3) &&& 7 ≤ 1)

instance (opcode modrm : UInt8) : Decidable (OperandSized opcode modrm) := inferInstanceAs (Decidable (_ ∨ _))

/-- `is_onebyte_riprel_opcode` accepts them, where there is room. -/
def Onebyte (opcode modrm : UInt8) : Prop :=
  ∃ operand16 pos sectSize trailingImm, (isOnebyteRiprelOpcode opcode modrm operand16 pos sectSize trailingImm).1 = true

/-- An instruction with a RIP-relative operand: a legacy prefix and a REX prefix without W, if
    any, an opcode of one byte, ModRM, displacement and immediate. -/
structure Instruction where
  legacy : Option UInt8
  rex : Option UInt8
  opcode : UInt8
  modrm : UInt8
  disp : UInt32
  imm : List UInt8
  legacy_ok : ∀ b ∈ legacy, isLegacyPrefix b = true
  rex_ok : ∀ b ∈ rex, b &&& 0xF8 = 0x40
  onebyte : Onebyte opcode modrm
  imm_length : imm.length = immediateBytes (legacy = some 0x66) opcode modrm

namespace Instruction

variable (i : Instruction)

def operand16 : Bool := i.legacy = some 0x66

/-- What stands before the displacement. -/
def head : List UInt8 := i.legacy.toList ++ i.rex.toList ++ [i.opcode, i.modrm]

def length : Nat := i.head.length + 4 + i.imm.length

/-- It stands at `start` in a section of `sectSize` bytes. -/
structure At (sectBuf : Mem) (sectSize start : Nat) : Prop where
  head : ∀ k b, i.head[k]? = some b → sectBuf (start + k) = b
  disp : read32 sectBuf (start + i.head.length) = i.disp
  imm : ∀ k b, i.imm[k]? = some b → sectBuf (start + i.head.length + 4 + k) = b
  inside : start + i.length ≤ sectSize

/-- What the processor addresses: the displacement counts from the next instruction. -/
def target (addr : UInt64) : UInt64 := addr + UInt64.ofNat i.length + signExtend32 i.disp

/-- The decoder finds the immediate, and with it the target, wherever the instruction is loaded. -/
def Decoded (sectBuf : Mem) (sectSize start : Nat) : Prop :=
  ∃ trailingImm, decodeRiprelDisp32 sectBuf (start + i.head.length) sectSize = (true, trailingImm) ∧
    trailingImm.toNat = i.imm.length ∧
    ∀ addr : UInt64, riprelTarget (addr + UInt64.ofNat i.head.length) i.disp trailingImm = i.target addr

end Instruction

/-! ## One reading -/

theorem Onebyte.riprel {opcode modrm : UInt8} (h : Onebyte opcode modrm) : modrm &&& 0xC7 = 0x05 := by
  obtain ⟨operand16, pos, sectSize, trailingImm, h⟩ := h
  by_contra hne
  rw [isOnebyteRiprelOpcode, if_pos hne] at h
  cases h

theorem plain_no_immediate : ∀ opcode ∈ plainOpcodes, ¬ (opcode = 0x80 ∨ opcode = 0x83 ∨ opcode = 0xc6) ∧
    ¬ (opcode = 0x81 ∨ opcode = 0xc7) ∧ opcode ≠ 0xf6 ∧ opcode ≠ 0xf7 := by
  decide +kernel

variable {trailingImm : UInt32}

/-- An accepted opcode is read with the immediate that it has at that operand size, if there is
    room for it. -/
theorem isOnebyteRiprelOpcode_eq {opcode modrm : UInt8} (h : Onebyte opcode modrm) (operand16 : Bool) {pos sectSize : Nat}
    (hplain : opcode ∈ plainOpcodes → trailingImm = 0) (hdisp : pos + 4 ≤ sectSize) :
    isOnebyteRiprelOpcode opcode modrm operand16 pos sectSize trailingImm =
      (decide (pos + 4 + immediateBytes operand16 opcode modrm ≤ sectSize), UInt32.ofNat (immediateBytes operand16 opcode modrm)) := by
  have hriprel := h.riprel
  rw [isOnebyteRiprelOpcode, if_neg (not_not.mpr hriprel), immediateBytes]
  split
  · rename_i hmem
    obtain ⟨h1, h2, h3, h4⟩ := plain_no_immediate opcode hmem
    simp [hplain hmem, h1, h2, h3, h4, hdisp]
  · split
    · rfl
    · split
      · cases operand16 <;> rfl
      · split
        · split <;> rfl
        · split
          · cases operand16 <;> split <;> rfl
          · -- no case is left for an opcode that is accepted
            rename_i h0 h1 h2 h3 h4
            obtain ⟨operand16', pos', sectSize', trailingImm', hacc⟩ := h
            rw [isOnebyteRiprelOpcode, if_neg (not_not.mpr hriprel), if_neg h0, if_neg h1, if_neg h2, if_neg h3, if_neg h4] at hacc
            cases hacc

theorem immediateBytes_le (operand16 : Bool) (opcode modrm : UInt8) : immediateBytes operand16 opcode modrm ≤ 4 := by
  unfold immediateBytes
  cases operand16 <;> grind

theorem immediateBytes_of_not_operandSized {opcode modrm : UInt8} (h : ¬ OperandSized opcode modrm) (operand16 operand16' : Bool) :
    immediateBytes operand16 opcode modrm = immediateBytes operand16' opcode modrm := by
  simp only [OperandSized, not_or, not_and] at h
  obtain ⟨h81, hc7, hf7⟩ := h
  simp only [immediateBytes, h81, hc7, or_self, if_false]
  by_cases hop : opcode = 0xf7
  · simp only [hf7 hop, if_false]
  · simp only [hop, if_false]

theorem immediateBytes_of_operandSized {opcode modrm : UInt8} (h : OperandSized opcode modrm) (operand16 : Bool) :
    immediateBytes operand16 opcode modrm = if operand16 then 2 else 4 := by
  rcases h with rfl | rfl | ⟨rfl, hreg⟩
  · rfl
  · rfl
  · simp [immediateBytes, hreg]

theorem not_plain_of_operandSized {opcode modrm : UInt8} (h : OperandSized opcode modrm) : opcode ∉ plainOpcodes := by
  rcases h with rfl | rfl | ⟨rfl, -⟩ <;> decide

/-! ## The readings in turn -/

@[simp] theorem firstOf_singleton (a : Attempt) (trailingImm : UInt32) : firstOf [a] trailingImm = a trailingImm := by
  rw [firstOf, firstOf]
  split
  · rfl
  · rename_i h
    exact Prod.ext (Bool.eq_false_of_not_eq_true h).symm rfl

/-- What has been tried before and failed leaves its count. -/
theorem firstOf_of_false {a : Attempt} {rest : List Attempt} {imm : UInt32} (h : a trailingImm = (false, imm)) :
    firstOf (a :: rest) trailingImm = firstOf rest imm := by
  rw [firstOf, h, if_neg Bool.false_ne_true]

theorem firstOf_of_true {a : Attempt} {rest : List Attempt} {imm : UInt32} (h : a trailingImm = (true, imm)) :
    firstOf (a :: rest) trailingImm = (true, imm) := by
  rw [firstOf, h, if_pos rfl]

theorem guarded_true {c : Bool} (h : c = true) (a : Attempt) (trailingImm : UInt32) : guarded c a trailingImm = a trailingImm := if_pos h

theorem guarded_false {c : Bool} (h : c = false) (a : Attempt) (trailingImm : UInt32) :
    guarded c a trailingImm = (false, trailingImm) := if_neg (by rw [h]; decide)

/-- The reading without prefixes. A `FF` that is accepted by itself is accepted among the other
    opcodes as well. -/
theorem lookBack2_eq {back : Nat → UInt8} (hriprel : back 1 &&& 0xC7 = 0x05) (pos sectSize : Nat) :
    lookBack2 back pos sectSize 0 = isOnebyteRiprelOpcode (back 2) (back 1) false pos sectSize 0 := by
  rw [lookBack2]
  by_cases h : (back 2 = 0xff && (back 1 = 0x15 || back 1 = 0x25 || back 1 = 0x35) : Bool) = true
  · have hopc : back 2 = 0xff := by simp only [Bool.and_eq_true, decide_eq_true_eq] at h; exact h.1
    have hmem : (0xff : UInt8) ∈ plainOpcodes := by decide
    have haccept : guarded (back 2 = 0xff && (back 1 = 0x15 || back 1 = 0x25 || back 1 = 0x35)) accept 0 = (true, 0) :=
      guarded_true h _ _
    rw [firstOf_of_true haccept, hopc, isOnebyteRiprelOpcode, if_neg (not_not.mpr hriprel), if_pos hmem]
  · rw [firstOf_of_false (guarded_false (Bool.eq_false_of_not_eq_true h) _ _), firstOf_singleton]

namespace Instruction

variable {i : Instruction} {sectBuf : Mem} {sectSize start : Nat}

theorem two_le_head (i : Instruction) : 2 ≤ i.head.length := by
  simp only [head, List.length_append, List.length_cons, List.length_nil]
  omega

theorem isRex_of_rex_ok {b : UInt8} (h : b &&& 0xF8 = 0x40) : isRex b = true ∧ b ≠ 0x66 ∧ b ≠ 0x0f := by
  refine ⟨decide_eq_true ?_, ?_, ?_⟩
  · rw [show (0xF0 : UInt8) = 0xF8 &&& 0xF0 from rfl, ← UInt8.and_assoc, h]
    rfl
  · rintro rfl
    exact absurd h (by decide)
  · rintro rfl
    exact absurd h (by decide)

section At

variable (h : i.At sectBuf sectSize start)

include h

/-- The bytes that the decoder looks back at. -/
theorem At.back {before after : List UInt8} {b : UInt8} (hsplit : i.head = before ++ b :: after) :
    sectBuf (start + i.head.length - (after.length + 1)) = b := by
  have hget : i.head[before.length]? = some b := by simp [hsplit]
  have hlen : i.head.length = before.length + (after.length + 1) := by simp [hsplit]
  rw [show start + i.head.length - (after.length + 1) = start + before.length by omega]
  exact h.head _ _ hget

theorem At.opcode : sectBuf (start + i.head.length - 2) = i.opcode :=
  h.back rfl

theorem At.modrm : sectBuf (start + i.head.length - 1) = i.modrm :=
  @At.back i sectBuf sectSize start h (i.legacy.toList ++ i.rex.toList ++ [i.opcode]) [] i.modrm (by simp [Instruction.head])

theorem At.disp_inside : start + i.head.length + 4 + i.imm.length ≤ sectSize := by
  have := h.inside
  unfold Instruction.length at this
  omega

/-- The first reading takes the immediate to be as long as without prefixes. -/
theorem At.first_reading :
    guarded (2 ≤ start + i.head.length) (lookBack2 (fun n => sectBuf (start + i.head.length - n)) (start + i.head.length) sectSize) 0 =
      (decide (start + i.head.length + 4 + immediateBytes false i.opcode i.modrm ≤ sectSize),
        UInt32.ofNat (immediateBytes false i.opcode i.modrm)) := by
  have hinside := h.disp_inside
  have hhead := i.two_le_head
  rw [guarded_true (decide_eq_true (by omega)), lookBack2_eq (by rw [h.modrm]; exact i.onebyte.riprel), h.modrm, h.opcode,
    isOnebyteRiprelOpcode_eq i.onebyte false (fun _ => rfl) (by omega)]

/-- Where there is room for the immediate of an instruction without prefixes, that is what is read. -/
theorem At.decode_of_room (hroom : start + i.head.length + 4 + immediateBytes false i.opcode i.modrm ≤ sectSize) :
    decodeRiprelDisp32 sectBuf (start + i.head.length) sectSize = (true, UInt32.ofNat (immediateBytes false i.opcode i.modrm)) := by
  refine firstOf_of_true ?_
  rw [h.first_reading, decide_eq_true hroom]

/-- Where there is none, a later reading sees the prefix that shortens the immediate. -/
theorem At.decode_of_no_room (h66 : i.legacy = some 0x66) (hsized : OperandSized i.opcode i.modrm)
    (hroom : sectSize < start + i.head.length + 8) :
    decodeRiprelDisp32 sectBuf (start + i.head.length) sectSize = (true, 2) := by
  have h4 : immediateBytes false i.opcode i.modrm = 4 := immediateBytes_of_operandSized hsized false
  have h2 : immediateBytes true i.opcode i.modrm = 2 := immediateBytes_of_operandSized hsized true
  have himm : i.imm.length = 2 := by rw [i.imm_length, h66, ← h2]; rfl
  have hinside := h.disp_inside
  have honebyte : ∀ operand16, isOnebyteRiprelOpcode i.opcode i.modrm operand16 (start + i.head.length) sectSize 4 =
      (operand16, if operand16 then 2 else 4) := by
    intro operand16
    rw [isOnebyteRiprelOpcode_eq i.onebyte operand16 (fun hp => absurd hp (not_plain_of_operandSized hsized)) (by omega)]
    cases operand16
    · rw [h4, decide_eq_false (by omega)]
      rfl
    · rw [h2, decide_eq_true (by omega)]
      rfl
  have hfirst := h.first_reading
  rw [h4, show decide (start + i.head.length + 4 + 4 ≤ sectSize) = false from decide_eq_false (by omega)] at hfirst
  rw [decodeRiprelDisp32, firstOf_of_false hfirst]
  cases hrex : i.rex with
  | none =>
    have hback : sectBuf (start + i.head.length - 3) = 0x66 :=
      h.back (show i.head = [] ++ 0x66 :: [i.opcode, i.modrm] by simp [Instruction.head, h66, hrex])
    have hlen : i.head.length = 3 := by simp [Instruction.head, h66, hrex]
    refine firstOf_of_true ?_
    rw [guarded_true (decide_eq_true (by omega)), lookBack3]
    refine firstOf_of_true ?_
    rw [hback, guarded_true (show (isRex 0x66 || isLegacyPrefix 0x66) = true by decide), h.opcode, h.modrm]
    exact honebyte true
  | some rex =>
    obtain ⟨hisRex, hne66, hne0f⟩ := isRex_of_rex_ok (i.rex_ok rex hrex)
    have hback3 : sectBuf (start + i.head.length - 3) = rex :=
      h.back (show i.head = [0x66] ++ rex :: [i.opcode, i.modrm] by simp [Instruction.head, h66, hrex])
    have hback4 : sectBuf (start + i.head.length - 4) = 0x66 :=
      h.back (show i.head = [] ++ 0x66 :: [rex, i.opcode, i.modrm] by simp [Instruction.head, h66, hrex])
    have hlen : i.head.length = 4 := by simp [Instruction.head, h66, hrex]
    -- the reading with REX alone finds no room either
    have hthree : guarded (3 ≤ start + i.head.length)
        (lookBack3 (fun n => sectBuf (start + i.head.length - n)) (start + i.head.length) sectSize) 4 = (false, 4) := by
      rw [guarded_true (decide_eq_true (by omega)), lookBack3, hback3, h.opcode, h.modrm, hisRex, decide_eq_false hne66,
        decide_eq_false hne0f, Bool.true_or, Bool.false_and, firstOf_of_false ((guarded_true rfl _ _).trans (honebyte false)),
        firstOf_singleton]
      rfl
    rw [show UInt32.ofNat 4 = 4 from rfl, firstOf_of_false hthree]
    refine firstOf_of_true ?_
    rw [guarded_true (decide_eq_true (by omega)), lookBack4, hback3, hback4, h.opcode, h.modrm, hisRex, decide_eq_false hne0f]
    rw [firstOf_of_false (guarded_false (by simp) _ _)]
    refine firstOf_of_true ?_
    rw [guarded_true (show (isLegacyPrefix 0x66 && true) = true by decide)]
    exact honebyte true

end At

theorem target_eq (himm : trailingImm.toNat = i.imm.length) (addr : UInt64) :
    riprelTarget (addr + UInt64.ofNat i.head.length) i.disp trailingImm = i.target addr := by
  have hlen : (4 : UInt64) + trailingImm.toUInt64 = UInt64.ofNat (4 + i.imm.length) := by
    rw [← himm]
    apply UInt64.toNat_inj.mp
    have := trailingImm.toNat_lt
    simp
  rw [riprelTarget, target, length, Nat.add_assoc, UInt64.ofNat_add, ← hlen]
  ac_rfl

/-- The decoder finds the immediate and the target exactly if no operand-size prefix shortens the
    immediate, or if the section ends before the longer one would. -/
theorem decodes_iff (i : Instruction) (sectBuf : Mem) (sectSize start : Nat) (h : i.At sectBuf sectSize start) :
    i.Decoded sectBuf sectSize start ↔
      ¬ (i.legacy = some 0x66 ∧ OperandSized i.opcode i.modrm ∧ start + i.head.length + 8 ≤ sectSize) := by
  have hinside := h.disp_inside
  have himm := i.imm_length
  constructor
  · rintro ⟨trailingImm, hdec, hcount, -⟩ ⟨h66, hsized, hroom⟩
    have h4 := immediateBytes_of_operandSized hsized false
    have h2 := immediateBytes_of_operandSized hsized true
    rw [h.decode_of_room (by rw [h4]; exact hroom), h4] at hdec
    rw [h66, show (decide (some (0x66 : UInt8) = some 0x66)) = true from rfl, h2] at himm
    obtain ⟨-, rfl⟩ := Prod.mk.inj hdec
    rw [himm] at hcount
    exact absurd hcount (by decide)
  · intro hnot
    -- the immediate is as long as without prefixes, or the prefix is seen
    by_cases hsame : immediateBytes false i.opcode i.modrm = i.imm.length
    · have hlt : i.imm.length < 2 ^ 32 := by
        have := immediateBytes_le false i.opcode i.modrm
        omega
      have hcount : (UInt32.ofNat (immediateBytes false i.opcode i.modrm)).toNat = i.imm.length := by
        rw [hsame, UInt32.toNat_ofNat_of_lt' hlt]
      exact ⟨_, h.decode_of_room (by omega), hcount, target_eq hcount⟩
    · have hsized : OperandSized i.opcode i.modrm := by
        by_contra hnsized
        exact hsame ((immediateBytes_of_not_operandSized hnsized _ _).trans himm.symm)
      have h66 : i.legacy = some 0x66 := by
        by_contra hn66
        rw [decide_eq_false hn66] at himm
        exact hsame himm.symm
      have h2 : i.imm.length = 2 := by
        rw [himm, h66]
        exact immediateBytes_of_operandSized hsized true
      refine ⟨2, h.decode_of_no_room h66 hsized (by by_contra hge; exact hnot ⟨h66, hsized, by omega⟩), h2.symm, target_eq h2.symm⟩

/-- `movw $0x1234, 0x1000(%rip)` -/
def movw : Instruction where
  legacy := some 0x66
  rex := none
  opcode := 0xc7
  modrm := 0x05
  disp := 0x1000
  imm := [0x34, 0x12]
  legacy_ok := by decide +kernel
  rex_ok := by simp
  onebyte := ⟨false, 0, 8, 0, by decide⟩
  imm_length := by decide

/-- The `movw` and a return. -/
def movwSection : List UInt8 := [0x66, 0xc7, 0x05, 0x00, 0x10, 0x00, 0x00, 0x34, 0x12, 0xc3, 0x90]

theorem movw_at {sectSize : Nat} (h : 9 ≤ sectSize) : movw.At (memOf movwSection) sectSize 0 where
  head k b hb := by
    have hk : k < 3 := (List.getElem?_eq_some_iff.mp hb).1
    interval_cases k <;> simpa [movw, head, memOf, movwSection] using hb
  disp := by decide
  imm k b hb := by
    have hk : k < 2 := (List.getElem?_eq_some_iff.mp hb).1
    interval_cases k <;> simpa [movw, head, memOf, movwSection] using hb
  inside := h

/-- At the end of a section there is no room for a longer reading. -/
theorem decodes_iff_last : movw.Decoded (memOf movwSection) 9 0 :=
  (decodes_iff movw (memOf movwSection) 9 0 (movw_at (by decide))).mpr (by decide)

/-- It is taken for a `movl`, and its target for one that is two bytes further on. -/
theorem movw_is_read_as_movl : movw.At (memOf movwSection) 11 0 ∧ ¬ movw.Decoded (memOf movwSection) 11 0 ∧
    decodeRiprelDisp32 (memOf movwSection) 3 11 = (true, 4) ∧ movw.target 0x2000 = 0x3009 ∧ riprelTarget 0x2003 0x1000 4 = 0x300b := by
  have hread : decodeRiprelDisp32 (memOf movwSection) 3 11 = (true, 4) := by decide
  refine ⟨movw_at (by decide), ?_, hread, by decide⟩
  rintro ⟨trailingImm, hdec, hcount, -⟩
  obtain ⟨-, rfl⟩ := Prod.mk.inj (hread.symm.trans hdec)
  exact absurd hcount (by decide)

end Instruction

end Panthera.Cache
