/-
  Panthera.Fixups.Opcodes — the rebase and bind opcode interpreters of the cache
  builder (`apply_rebases`, `apply_binds`) and of dyld (`applyRebases`, `applyBinds`).

  The operand readers do not stop at the stream's end, so the interpreters hold the
  mapped bytes from the pointer on and the number `tail` of them that follow the end:
  `p < end` is `tail < bytes.length`. An operand that runs off the mapped bytes is a
  fault; a run then ends there, and its flag says so. What is done at a location is a
  parameter (`act`, or `resolve` and `store`): the same loop produces events and drives
  the fixups of `Panthera.Cache.Fixups` and `Panthera.Dyld.Fixups`.

  The two programs are written separately, as the sources are: the builder folds the
  four bind opcodes into one count-and-skip loop and reads `skip` before it binds;
  dyld binds each in its own case and reads the operand after, and stops after a
  million opcodes.

  `opcode_events_agree`: the two rebase loops do the same, and up to dyld's opcode limit
  the two bind loops.
-/

import Panthera.MachO.Image

namespace Panthera.Fixups

open MachO

/-! ## Operands -/

def ulebFrom (r : UInt64) (s : Nat) : List UInt8 → Option (UInt64 × List UInt8)
  | [] => none
  | b :: p =>
    let r' := r ||| ((b &&& 0x7F).toUInt64 <<< UInt64.ofNat s)
    if b &&& 0x80 = 0 then some (r', p) else ulebFrom r' (s + 7) p

def slebFrom (r : UInt64) (s : Nat) : List UInt8 → Option (UInt64 × List UInt8)
  | [] => none
  | b :: p =>
    let r' := r ||| ((b &&& 0x7F).toUInt64 <<< UInt64.ofNat s)
    if b &&& 0x80 = 0 then
      some (if s + 7 < 64 ∧ b &&& 0x40 ≠ 0 then r' ||| -(1 <<< UInt64.ofNat (s + 7)) else r', p)
    else slebFrom r' (s + 7) p

/-- The builder's `read_uleb128`. -/
def readUleb128 : List UInt8 → Option (UInt64 × List UInt8) := ulebFrom 0 0

/-- The builder's `read_sleb128`. -/
def readSleb128 : List UInt8 → Option (UInt64 × List UInt8) := slebFrom 0 0

/-- dyld's `readULEB128`. -/
def readULEB128 : List UInt8 → Option (UInt64 × List UInt8) := ulebFrom 0 0

/-- dyld's `readSLEB128`. -/
def readSLEB128 : List UInt8 → Option (UInt64 × List UInt8) := slebFrom 0 0

/-- `(int)` of a 64-bit value. -/
def toInt (v : UInt64) : Int := (v.toNat : Int).bmod (2 ^ 32)

/-- `(int8_t)(0xF0 | imm)`, or 0 for immediate 0. -/
def specialOrdinal (imm : UInt8) : Int := if imm = 0 then 0 else (0xF0 ||| imm).toInt8.toInt

/-- `while (p < end && *p) p++; if (p < end) p++;` with `n` bytes left before the end. -/
def skipName : Nat → List UInt8 → List UInt8
  | n + 1, b :: p => if b = 0 then p else skipName n p
  | _, p => p

structure RebaseEvent where
  segIndex : UInt8
  segOffset : UInt64
  deriving DecidableEq, Repr

structure BindEvent where
  segIndex : UInt8
  segOffset : UInt64
  symbolName : CStr
  ordinal : Int
  addend : UInt64
  weakImport : Bool
  deriving DecidableEq, Repr

/-- The interpreter's registers while it reads a bind stream. -/
structure BindRegs where
  segIndex : UInt8
  segOffset : UInt64
  symbolName : CStr
  flags : UInt8
  ordinal : Int
  addend : UInt64

def BindRegs.init : BindRegs := ⟨0, 0, [], 0, 0, 0⟩

/-- What a bind at the current location is. `BIND_SYMBOL_FLAGS_WEAK_IMPORT` is 1. -/
def BindRegs.event (g : BindRegs) : BindEvent :=
  ⟨g.segIndex, g.segOffset, g.symbolName, g.ordinal, g.addend, g.flags &&& 0x01 != 0⟩

variable {σ : Type}

/-! ## The builder -/

namespace Builder

variable (act : RebaseEvent → σ → σ)

/-- `for (j = 0; j < n; j++) { do_rebase(d, segIdx, segOff); segOff += stride; }` -/
def rebaseTimes (segIdx : UInt8) (stride : UInt64) : Nat → UInt64 → σ → UInt64 × σ
  | 0, segOff, st => (segOff, st)
  | n + 1, segOff, st => rebaseTimes segIdx stride n (segOff + stride) (act ⟨segIdx, segOff⟩ st)

/-- The loop of `apply_rebases`. Every turn reads at least one byte, so as many turns
    as there are bytes are enough. -/
def rebaseOps (tail : Nat) : Nat → List UInt8 → UInt8 → UInt64 → σ → σ × Bool
  | fuel + 1, byte :: p, segIdx, segOff, st =>
    if p.length + 1 ≤ tail then (st, true) else
    let imm := byte &&& 0x0F
    match (byte &&& 0xF0).toNat with
    | 0x00 => (st, true)
    | 0x20 =>
      match readUleb128 p with
      | some (v, p) => rebaseOps tail fuel p imm v st
      | none => (st, false)
    | 0x30 =>
      match readUleb128 p with
      | some (v, p) => rebaseOps tail fuel p segIdx (segOff + v) st
      | none => (st, false)
    | 0x40 => rebaseOps tail fuel p segIdx (segOff + imm.toUInt64 * 8) st
    | 0x50 =>
      let r := rebaseTimes act segIdx 8 imm.toNat segOff st
      rebaseOps tail fuel p segIdx r.1 r.2
    | 0x60 =>
      match readUleb128 p with
      | some (cnt, p) =>
        let r := rebaseTimes act segIdx 8 cnt.toNat segOff st
        rebaseOps tail fuel p segIdx r.1 r.2
      | none => (st, false)
    | 0x70 =>
      let st := act ⟨segIdx, segOff⟩ st
      match readUleb128 p with
      | some (v, p) => rebaseOps tail fuel p segIdx (segOff + (v + 8)) st
      | none => (st, false)
    | 0x80 =>
      match readUleb128 p with
      | some (cnt, p) =>
        match readUleb128 p with
        | some (skip, p) =>
          let r := rebaseTimes act segIdx (skip + 8) cnt.toNat segOff st
          rebaseOps tail fuel p segIdx r.1 r.2
        | none => (st, false)
      | none => (st, false)
    | _ => rebaseOps tail fuel p segIdx segOff st
  | _, _, _, _, st => (st, true)

def applyRebases (s : Stream) (st : σ) : σ × Bool :=
  rebaseOps act (s.bytes.length - s.size.toNat) s.bytes.length s.bytes 0 0 st

variable (resolve : CStr → Int → σ → UInt64 × σ) (store : BindEvent → UInt64 → σ → σ)

/-- The builder's bind loop: `count` turns, of which the add-address opcodes take one
    (the loop's `break`). -/
def bindTimes (g : BindRegs) (addr : UInt64) (stride : UInt64) (once : Bool) : Nat → UInt64 → σ → UInt64 × σ
  | 0, segOff, st => (segOff, st)
  | n + 1, segOff, st =>
    let st := store { g with segOffset := segOff }.event addr st
    if once then (segOff + stride, st) else bindTimes g addr stride once n (segOff + stride) st

/-- The loop of `apply_binds` for one stream; `pass` is 0 for binds, 1 for lazy binds. -/
def bindOps (pass : Nat) (tail : Nat) : Nat → List UInt8 → BindRegs → σ → σ × Bool
  | fuel + 1, byte :: p, g, st =>
    if p.length + 1 ≤ tail then (st, true) else
    let opcode := (byte &&& 0xF0).toNat
    let imm := byte &&& 0x0F
    match opcode with
    | 0x00 => if pass = 0 ∧ p.length ≤ tail then (st, true) else bindOps pass tail fuel p g st
    | 0x10 => bindOps pass tail fuel p { g with ordinal := imm.toNat } st
    | 0x20 =>
      match readUleb128 p with
      | some (v, p) => bindOps pass tail fuel p { g with ordinal := toInt v } st
      | none => (st, false)
    | 0x30 => bindOps pass tail fuel p { g with ordinal := specialOrdinal imm } st
    | 0x40 =>
      bindOps pass tail fuel (skipName (p.length - tail) p) { g with flags := imm, symbolName := cstrAt p 0 } st
    | 0x50 => bindOps pass tail fuel p g st
    | 0x60 =>
      match readSleb128 p with
      | some (v, p) => bindOps pass tail fuel p { g with addend := v } st
      | none => (st, false)
    | 0x70 =>
      match readUleb128 p with
      | some (v, p) => bindOps pass tail fuel p { g with segIndex := imm, segOffset := v } st
      | none => (st, false)
    | 0x80 =>
      match readUleb128 p with
      | some (v, p) => bindOps pass tail fuel p { g with segOffset := g.segOffset + v } st
      | none => (st, false)
    | 0x90 | 0xA0 | 0xB0 | 0xC0 =>
      let r := resolve g.symbolName g.ordinal st
      let operands : Option (UInt64 × UInt64 × List UInt8) :=
        if opcode = 0xA0 then (readUleb128 p).map fun (v, p) => (1, v, p)
        else if opcode = 0xB0 then some (1, imm.toUInt64 * 8, p)
        else if opcode = 0xC0 then (readUleb128 p).bind fun (v, p) => (readUleb128 p).map fun (w, p) => (v, w, p)
        else some (1, 0, p)
      match operands with
      | some (count, skip, p) =>
        let stride := if opcode = 0x90 then 8 else skip + 8
        let t := bindTimes store g r.1 stride (opcode = 0xA0 ∨ opcode = 0xB0) count.toNat g.segOffset r.2
        bindOps pass tail fuel p { g with segOffset := t.1 } t.2
      | none => (r.2, false)
    | _ => bindOps pass tail fuel p g st
  | _, _, _, st => (st, true)

def applyBinds (pass : Nat) (s : Stream) (st : σ) : σ × Bool :=
  bindOps resolve store pass (s.bytes.length - s.size.toNat) s.bytes.length s.bytes BindRegs.init st

end Builder

/-! ## dyld -/

namespace Dyld

variable (act : RebaseEvent → σ → σ)

/-- One of dyld's rebase loops: `segOffset` moves by a pointer and `skip` bytes. -/
def rebaseTimes (segIndex : UInt8) (skip : UInt64) : Nat → UInt64 → σ → UInt64 × σ
  | 0, segOffset, st => (segOffset, st)
  | n + 1, segOffset, st => rebaseTimes segIndex skip n (segOffset + (skip + 8)) (act ⟨segIndex, segOffset⟩ st)

/-- The loop of `applyRebases`. -/
def rebaseOps (tail : Nat) : Nat → List UInt8 → UInt8 → UInt64 → σ → σ × Bool
  | fuel + 1, byte :: p, segIndex, segOffset, st =>
    if p.length + 1 ≤ tail then (st, true) else
    let imm := byte &&& 0x0F
    match (byte &&& 0xF0).toNat with
    | 0x10 => rebaseOps tail fuel p segIndex segOffset st
    | 0x20 =>
      match readULEB128 p with
      | some (v, p) => rebaseOps tail fuel p imm v st
      | none => (st, false)
    | 0x30 =>
      match readULEB128 p with
      | some (v, p) => rebaseOps tail fuel p segIndex (segOffset + v) st
      | none => (st, false)
    | 0x40 => rebaseOps tail fuel p segIndex (segOffset + imm.toUInt64 * 8) st
    | 0x50 =>
      let r := rebaseTimes act segIndex 0 imm.toNat segOffset st
      rebaseOps tail fuel p segIndex r.1 r.2
    | 0x60 =>
      match readULEB128 p with
      | some (count, p) =>
        let r := rebaseTimes act segIndex 0 count.toNat segOffset st
        rebaseOps tail fuel p segIndex r.1 r.2
      | none => (st, false)
    | 0x70 =>
      let st := act ⟨segIndex, segOffset⟩ st
      match readULEB128 p with
      | some (v, p) => rebaseOps tail fuel p segIndex (segOffset + (v + 8)) st
      | none => (st, false)
    | 0x80 =>
      match readULEB128 p with
      | some (count, p) =>
        match readULEB128 p with
        | some (skip, p) =>
          let r := rebaseTimes act segIndex skip count.toNat segOffset st
          rebaseOps tail fuel p segIndex r.1 r.2
        | none => (st, false)
      | none => (st, false)
    | 0x00 => (st, true)
    | _ => rebaseOps tail fuel p segIndex segOffset st
  | _, _, _, _, st => (st, true)

def applyRebases (s : Stream) (st : σ) : σ × Bool :=
  rebaseOps act (s.bytes.length - s.size.toNat) s.bytes.length s.bytes 0 0 st

variable (resolve : CStr → Int → σ → UInt64 × σ) (store : BindEvent → UInt64 → σ → σ)

/-- `DO_BIND_ULEB_TIMES_SKIPPING_ULEB`'s loop. -/
def bindTimes (g : BindRegs) (addr : UInt64) (skip : UInt64) : Nat → UInt64 → σ → UInt64 × σ
  | 0, segOffset, st => (segOffset, st)
  | n + 1, segOffset, st =>
    bindTimes g addr skip n (segOffset + (skip + 8)) (store { g with segOffset := segOffset }.event addr st)

def opcodeLimit : Nat := 1000000

/-- The loop of `applyBinds` for one stream; `count` is `opcodeCount` before the turn. -/
def bindOps (pass : Nat) (tail : Nat) : Nat → Nat → List UInt8 → BindRegs → σ → σ × Bool
  | fuel + 1, count, byte :: p, g, st =>
    if p.length + 1 ≤ tail then (st, true) else
    if opcodeLimit < count + 1 then (st, true) else
    let imm := byte &&& 0x0F
    match (byte &&& 0xF0).toNat with
    | 0x00 => if pass = 0 ∧ p.length ≤ tail then (st, true) else bindOps pass tail fuel (count + 1) p g st
    | 0x10 => bindOps pass tail fuel (count + 1) p { g with ordinal := imm.toNat } st
    | 0x20 =>
      match readULEB128 p with
      | some (v, p) => bindOps pass tail fuel (count + 1) p { g with ordinal := toInt v } st
      | none => (st, false)
    | 0x30 => bindOps pass tail fuel (count + 1) p { g with ordinal := specialOrdinal imm } st
    | 0x40 =>
      bindOps pass tail fuel (count + 1) (skipName (p.length - tail) p)
        { g with flags := imm, symbolName := cstrAt p 0 } st
    | 0x50 => bindOps pass tail fuel (count + 1) p g st
    | 0x60 =>
      match readSLEB128 p with
      | some (v, p) => bindOps pass tail fuel (count + 1) p { g with addend := v } st
      | none => (st, false)
    | 0x70 =>
      match readULEB128 p with
      | some (v, p) => bindOps pass tail fuel (count + 1) p { g with segIndex := imm, segOffset := v } st
      | none => (st, false)
    | 0x80 =>
      match readULEB128 p with
      | some (v, p) => bindOps pass tail fuel (count + 1) p { g with segOffset := g.segOffset + v } st
      | none => (st, false)
    | 0x90 =>
      let r := resolve g.symbolName g.ordinal st
      bindOps pass tail fuel (count + 1) p { g with segOffset := g.segOffset + 8 } (store g.event r.1 r.2)
    | 0xA0 =>
      let r := resolve g.symbolName g.ordinal st
      let st := store g.event r.1 r.2
      match readULEB128 p with
      | some (v, p) => bindOps pass tail fuel (count + 1) p { g with segOffset := g.segOffset + (v + 8) } st
      | none => (st, false)
    | 0xB0 =>
      let r := resolve g.symbolName g.ordinal st
      bindOps pass tail fuel (count + 1) p { g with segOffset := g.segOffset + (imm.toUInt64 + 1) * 8 }
        (store g.event r.1 r.2)
    | 0xC0 =>
      match readULEB128 p with
      | some (n, p) =>
        match readULEB128 p with
        | some (skip, p) =>
          let r := resolve g.symbolName g.ordinal st
          let t := bindTimes store g r.1 skip n.toNat g.segOffset r.2
          bindOps pass tail fuel (count + 1) p { g with segOffset := t.1 } t.2
        | none => (st, false)
      | none => (st, false)
    | _ => bindOps pass tail fuel (count + 1) p g st
  | _, _, _, _, st => (st, true)

def applyBinds (pass : Nat) (s : Stream) (st : σ) : σ × Bool :=
  bindOps resolve store pass (s.bytes.length - s.size.toNat) s.bytes.length 0 s.bytes BindRegs.init st

end Dyld

/-! ## Invariants of a run -/

section Invariants

variable {P : σ → Prop} {act : RebaseEvent → σ → σ} {resolve : CStr → Int → σ → UInt64 × σ}
  {store : BindEvent → UInt64 → σ → σ}

theorem Builder.bindTimes_inv (hs : ∀ e a st, P st → P (store e a st)) (g : BindRegs) (addr stride : UInt64)
    (once : Bool) : ∀ (n : Nat) (off : UInt64) (st : σ), P st →
      P (Builder.bindTimes store g addr stride once n off st).2 := by
  intro n
  induction n with
  | zero => intro _ _ h; exact h
  | succ n ih =>
    intro off st h
    simp only [Builder.bindTimes]
    split
    · exact hs _ _ _ h
    · exact ih _ _ (hs _ _ _ h)

/-- What every lookup and every bind preserve, a whole run of `apply_binds` preserves. -/
theorem Builder.bindOps_inv (hr : ∀ n o st, P st → P (resolve n o st).2) (hs : ∀ e a st, P st → P (store e a st))
    (pass tail : Nat) : ∀ (fuel : Nat) (bytes : List UInt8) (g : BindRegs) (st : σ), P st →
      P (Builder.bindOps resolve store pass tail fuel bytes g st).1 := by
  intro fuel
  induction fuel with
  | zero => intro _ _ _ h; exact h
  | succ fuel ih =>
    intro bytes g st h
    have ht := fun stride once n => Builder.bindTimes_inv hs g (resolve g.symbolName g.ordinal st).1 stride once n
      g.segOffset _ (hr g.symbolName g.ordinal st h)
    cases bytes with
    | nil => exact h
    | cons byte p =>
      simp only [Builder.bindOps]
      repeat' split
      all_goals first | exact h | exact ih _ _ _ h | exact ih _ _ _ (ht _ _ _) | exact hr _ _ _ h

theorem Dyld.rebaseTimes_inv (ha : ∀ e st, P st → P (act e st)) (seg : UInt8) (skip : UInt64) :
    ∀ (n : Nat) (off : UInt64) (st : σ), P st → P (Dyld.rebaseTimes act seg skip n off st).2 := by
  intro n
  induction n with
  | zero => intro _ _ h; exact h
  | succ n ih => intro off st h; exact ih _ _ (ha _ _ h)

theorem Dyld.rebaseOps_inv (ha : ∀ e st, P st → P (act e st)) (tail : Nat) :
    ∀ (fuel : Nat) (bytes : List UInt8) (seg : UInt8) (off : UInt64) (st : σ), P st →
      P (Dyld.rebaseOps act tail fuel bytes seg off st).1 := by
  intro fuel
  induction fuel with
  | zero => intro _ _ _ _ h; exact h
  | succ fuel ih =>
    intro bytes seg off st h
    have ht := fun skip n => Dyld.rebaseTimes_inv ha seg skip n off st h
    cases bytes with
    | nil => exact h
    | cons byte p =>
      simp only [Dyld.rebaseOps]
      repeat' split
      all_goals first | exact h | exact ih _ _ _ _ h | exact ih _ _ _ _ (ht _ _) | exact ih _ _ _ _ (ha _ _ h) |
        exact ha _ _ h

theorem Dyld.bindTimes_inv (hs : ∀ e a st, P st → P (store e a st)) (g : BindRegs) (addr skip : UInt64) :
    ∀ (n : Nat) (off : UInt64) (st : σ), P st → P (Dyld.bindTimes store g addr skip n off st).2 := by
  intro n
  induction n with
  | zero => intro _ _ h; exact h
  | succ n ih => intro off st h; exact ih _ _ (hs _ _ _ h)

theorem Dyld.bindOps_inv (hr : ∀ n o st, P st → P (resolve n o st).2) (hs : ∀ e a st, P st → P (store e a st))
    (pass tail : Nat) : ∀ (fuel count : Nat) (bytes : List UInt8) (g : BindRegs) (st : σ), P st →
      P (Dyld.bindOps resolve store pass tail fuel count bytes g st).1 := by
  intro fuel
  induction fuel with
  | zero => intro _ _ _ _ h; exact h
  | succ fuel ih =>
    intro count bytes g st h
    have hb := hs g.event (resolve g.symbolName g.ordinal st).1 _ (hr g.symbolName g.ordinal st h)
    have ht := fun skip n => Dyld.bindTimes_inv hs g (resolve g.symbolName g.ordinal st).1 skip n g.segOffset _
      (hr g.symbolName g.ordinal st h)
    cases bytes with
    | nil => exact h
    | cons byte p =>
      simp only [Dyld.bindOps]
      repeat' split
      all_goals first | exact h | exact hb | exact ih _ _ _ _ h | exact ih _ _ _ _ hb | exact ih _ _ _ _ (ht _ _)

end Invariants

/-! ## The two programs agree -/

section Agreement

variable (act : RebaseEvent → σ → σ)

theorem rebaseTimes_agree (seg : UInt8) (skip : UInt64) : ∀ (n : Nat) (off : UInt64) (st : σ),
    Builder.rebaseTimes act seg (skip + 8) n off st = Dyld.rebaseTimes act seg skip n off st := by
  intro n
  induction n with
  | zero => intros; rfl
  | succ n ih => intro off st; simp only [Builder.rebaseTimes, Dyld.rebaseTimes, ih]

theorem rebaseOps_agree (tail : Nat) : ∀ (fuel : Nat) (bytes : List UInt8) (seg : UInt8) (off : UInt64) (st : σ),
    Builder.rebaseOps act tail fuel bytes seg off st = Dyld.rebaseOps act tail fuel bytes seg off st := by
  intro fuel
  induction fuel with
  | zero => intros; rfl
  | succ fuel ih =>
    intro bytes seg off st
    cases bytes with
    | nil => rfl
    | cons byte p =>
      have ht : ∀ n, Builder.rebaseTimes act seg 8 n off st = Dyld.rebaseTimes act seg 0 n off st :=
        fun n => rebaseTimes_agree act seg 0 n off st
      simp only [Builder.rebaseOps, Dyld.rebaseOps, readUleb128, readULEB128, ih, ht, rebaseTimes_agree]
      by_cases he : p.length + 1 ≤ tail
      · simp only [he, if_true]
      · simp only [he, if_false]
        generalize (byte &&& 0xF0).toNat = op
        split <;> try rfl
        -- an opcode the builder ignores: dyld's `SET_TYPE` case and its default both ignore it
        split <;> first | rfl | contradiction

/-- What every rebase preserves, a whole run of `apply_rebases` preserves. -/
theorem Builder.rebaseOps_inv {P : σ → Prop} {act : RebaseEvent → σ → σ} (ha : ∀ e st, P st → P (act e st)) (tail fuel : Nat)
    (bytes : List UInt8) (seg : UInt8) (off : UInt64) (st : σ) (h : P st) : P (Builder.rebaseOps act tail fuel bytes seg off st).1 := by
  rw [rebaseOps_agree]
  exact Dyld.rebaseOps_inv ha tail fuel bytes seg off st h

variable (resolve : CStr → Int → σ → UInt64 × σ) (store : BindEvent → UInt64 → σ → σ)

theorem bindTimes_agree (g : BindRegs) (addr skip : UInt64) : ∀ (n : Nat) (off : UInt64) (st : σ),
    Builder.bindTimes store g addr (skip + 8) false n off st = Dyld.bindTimes store g addr skip n off st := by
  intro n
  induction n with
  | zero => intros; rfl
  | succ n ih => intro off st; simp [Builder.bindTimes, Dyld.bindTimes, ih]

/-- The builder's loop for the opcodes that bind a single location. -/
theorem bindTimes_one (g : BindRegs) (addr stride : UInt64) (once : Bool) (st : σ) :
    Builder.bindTimes store g addr stride once 1 g.segOffset st = (g.segOffset + stride, store g.event addr st) := by
  cases once <;> rfl

/-- Where the opcode `byte` ends, its operands at `p`. -/
def afterOp (tail : Nat) (byte : UInt8) (p : List UInt8) : Option (List UInt8) :=
  match (byte &&& 0xF0).toNat with
  | 0x20 | 0x70 | 0x80 | 0xA0 => (readULEB128 p).map (·.2)
  | 0x40 => some (skipName (p.length - tail) p)
  | 0x60 => (readSLEB128 p).map (·.2)
  | 0xC0 => (readULEB128 p).bind fun v => (readULEB128 v.2).map (·.2)
  | _ => some p

def countFrom (tail : Nat) : Nat → List UInt8 → Nat
  | fuel + 1, byte :: p =>
    if p.length + 1 ≤ tail then 0 else
    match afterOp tail byte p with
    | some p' => countFrom tail fuel p' + 1
    | none => 1
  | _, _ => 0

/-- How many opcodes a bind stream holds. -/
def opcodeCount (s : Stream) : Nat := countFrom (s.bytes.length - s.size.toNat) s.bytes.length s.bytes

/-- Both runs fault, or neither does and they end alike. -/
def Agree (b d : σ × Bool) : Prop := d.2 = b.2 ∧ (b.2 = true → d.1 = b.1)

theorem Agree.refl (r : σ × Bool) : Agree r r := ⟨rfl, fun _ => rfl⟩

theorem Agree.fault (a b : σ) : Agree (a, false) (b, false) := ⟨rfl, fun h => by cases h⟩

theorem bindOps_agree (pass tail : Nat) : ∀ (fuel count : Nat) (bytes : List UInt8) (g : BindRegs) (st : σ),
    count + countFrom tail fuel bytes ≤ Dyld.opcodeLimit →
    Agree (Builder.bindOps resolve store pass tail fuel bytes g st)
      (Dyld.bindOps resolve store pass tail fuel count bytes g st) := by
  intro fuel
  induction fuel with
  | zero => intros; exact .refl _
  | succ fuel ih =>
    intro count bytes g st hc
    cases bytes with
    | nil => exact .refl _
    | cons byte p =>
      simp only [Builder.bindOps, Dyld.bindOps]
      by_cases he : p.length + 1 ≤ tail
      · simp only [he, if_true]; exact .refl _
      · -- one opcode is spent here, so dyld's limit is not reached and holds for the rest
        have hlim : ¬ Dyld.opcodeLimit < count + 1 := by
          simp only [countFrom, he, if_false] at hc
          split at hc <;> omega
        have next : ∀ p' g' st', afterOp tail byte p = some p' →
            Agree (Builder.bindOps resolve store pass tail fuel p' g' st')
              (Dyld.bindOps resolve store pass tail fuel (count + 1) p' g' st') := by
          intro p' g' st' hp'
          simp only [countFrom, he, if_false, hp'] at hc
          exact ih _ _ _ _ (by omega)
        simp only [he, if_false, hlim]
        unfold afterOp at next
        generalize (byte &&& 0xF0).toNat = op at next ⊢
        simp only [readUleb128, readSleb128, readULEB128, readSLEB128] at next ⊢
        split
        case h_1 =>
          split
          · exact .refl _
          · exact next _ _ _ rfl
        case h_3 | h_8 | h_9 =>
          cases hu : ulebFrom 0 0 p with
          | none => exact .fault _ _
          | some v => exact next _ _ _ (by simp [hu])
        case h_7 =>
          cases hu : slebFrom 0 0 p with
          | none => exact .fault _ _
          | some v => exact next _ _ _ (by simp [hu])
        -- DO_BIND: the builder's count is 1 and its stride a pointer
        case h_10 => simpa [bindTimes_one] using next _ _ _ rfl
        -- ADD_ADDR_ULEB: the builder has already read the operand dyld reads after the bind
        case h_11 =>
          cases hu : ulebFrom 0 0 p with
          | none => simpa [hu] using Agree.fault _ _
          | some v => simpa [hu, bindTimes_one] using next _ _ _ (by simp [hu])
        -- ADD_ADDR_IMM_SCALED: `imm * 8 + 8` against `(imm + 1) * 8`
        case h_12 =>
          have hs : ∀ x : UInt64, x * 8 + 8 = (x + 1) * 8 := fun x => by rw [UInt64.add_mul, UInt64.one_mul]
          simpa [bindTimes_one, hs] using next _ _ _ rfl
        case h_13 =>
          cases hu : ulebFrom 0 0 p with
          | none => simpa [hu] using Agree.fault _ _
          | some v =>
            cases hw : ulebFrom 0 0 v.2 with
            | none => simpa [hu, hw] using Agree.fault _ _
            | some w => simpa [hu, hw, bindTimes_agree] using next _ _ _ (by simp [hu, hw])
        case h_14 => exact next _ _ _ (by split <;> first | rfl | contradiction)
        all_goals exact next _ _ _ rfl

end Agreement

/-! ## Events -/

def Builder.rebaseEvents (s : Stream) : List RebaseEvent × Bool := Builder.applyRebases (fun e l => l ++ [e]) s []

def Dyld.rebaseEvents (s : Stream) : List RebaseEvent × Bool := Dyld.applyRebases (fun e l => l ++ [e]) s []

def Builder.bindEvents (pass : Nat) (s : Stream) : List BindEvent × Bool :=
  Builder.applyBinds (fun _ _ l => (0, l)) (fun e _ l => l ++ [e]) pass s []

def Dyld.bindEvents (pass : Nat) (s : Stream) : List BindEvent × Bool :=
  Dyld.applyBinds (fun _ _ l => (0, l)) (fun e _ l => l ++ [e]) pass s []

/-! A run is a fold over the events of its stream. -/

section Runs

variable {τ : Type} {act : RebaseEvent → σ → σ} {act' : RebaseEvent → τ → τ} {f : σ → τ}

theorem Dyld.rebaseTimes_map (hf : ∀ e st, act' e (f st) = f (act e st)) (seg : UInt8) (skip : UInt64) :
    ∀ (n : Nat) (off : UInt64) (st : σ),
      Dyld.rebaseTimes act' seg skip n off (f st) = (Dyld.rebaseTimes act seg skip n off st).map id f := by
  intro n
  induction n with
  | zero => intros; rfl
  | succ n ih => intro off st; rw [Dyld.rebaseTimes, Dyld.rebaseTimes, hf, ih]

theorem Dyld.rebaseOps_map (hf : ∀ e st, act' e (f st) = f (act e st)) (tail : Nat) :
    ∀ (fuel : Nat) (bytes : List UInt8) (seg : UInt8) (off : UInt64) (st : σ),
      Dyld.rebaseOps act' tail fuel bytes seg off (f st) = (Dyld.rebaseOps act tail fuel bytes seg off st).map f id := by
  intro fuel
  induction fuel with
  | zero => intros; rfl
  | succ fuel ih =>
    intro bytes seg off st
    cases bytes with
    | nil => rfl
    | cons byte p =>
      simp only [Dyld.rebaseOps]
      by_cases he : p.length + 1 ≤ tail
      · simp only [he, if_true, Prod.map_apply, id]
      · simp only [he, if_false]
        generalize (byte &&& 0xF0).toNat = op
        split
        case h_9 => rfl
        all_goals simp only [Dyld.rebaseTimes_map hf, hf, Prod.map_fst, Prod.map_snd, id, ih]
        all_goals first | rfl | (repeat' split) <;> rfl

variable {store : BindEvent → UInt64 → σ → σ} {store' : BindEvent → UInt64 → τ → τ} {resolve : CStr → Int → UInt64}
  (hf : ∀ e a st, store' e (resolve e.symbolName e.ordinal) (f st) = f (store e a st))
include hf

theorem Dyld.bindTimes_map (g : BindRegs) (skip : UInt64) : ∀ (n : Nat) (off : UInt64) (st : σ),
      Dyld.bindTimes store' g (resolve g.symbolName g.ordinal) skip n off (f st) =
        (Dyld.bindTimes store g 0 skip n off st).map id f := by
  intro n
  induction n with
  | zero => intros; rfl
  | succ n ih =>
    intro off st
    rw [Dyld.bindTimes, Dyld.bindTimes, ← ih]
    exact congrArg _ (hf { g with segOffset := off }.event 0 st)

theorem Dyld.bindOps_map (pass tail : Nat) :
    ∀ (fuel count : Nat) (bytes : List UInt8) (g : BindRegs) (st : σ),
      Dyld.bindOps (fun n o st => (resolve n o, st)) store' pass tail fuel count bytes g (f st) =
        (Dyld.bindOps (fun _ _ st => (0, st)) store pass tail fuel count bytes g st).map f id := by
  intro fuel
  induction fuel with
  | zero => intros; rfl
  | succ fuel ih =>
    intro count bytes g st
    have hstore : store' g.event (resolve g.symbolName g.ordinal) (f st) = f (store g.event 0 st) := hf g.event 0 st
    cases bytes with
    | nil => rfl
    | cons byte p =>
      simp only [Dyld.bindOps]
      by_cases he : p.length + 1 ≤ tail
      · simp only [he, if_true, Prod.map_apply, id]
      · by_cases hl : Dyld.opcodeLimit < count + 1
        · simp only [he, hl, if_true, if_false, Prod.map_apply, id]
        · simp only [he, hl, if_false]
          generalize (byte &&& 0xF0).toNat = op
          split
          all_goals simp only [Dyld.bindTimes_map hf, hstore, Prod.map_fst, Prod.map_snd, id, ih]
          all_goals first | rfl | (repeat' split) <;> rfl

omit hf

theorem Dyld.applyRebases_eq (act : RebaseEvent → σ → σ) (s : Stream) (st : σ) :
    Dyld.applyRebases act s st = ((Dyld.rebaseEvents s).1.foldl (fun st e => act e st) st, (Dyld.rebaseEvents s).2) :=
  Dyld.rebaseOps_map (f := fun l : List RebaseEvent => l.foldl (fun st e => act e st) st)
    (fun e l => by rw [List.foldl_append, List.foldl_cons, List.foldl_nil]) _ _ _ _ _ []

theorem Dyld.applyBinds_eq (resolve : CStr → Int → UInt64) (store : BindEvent → UInt64 → σ → σ) (pass : Nat) (s : Stream) (st : σ) :
    Dyld.applyBinds (fun n o st => (resolve n o, st)) store pass s st =
      ((Dyld.bindEvents pass s).1.foldl (fun st e => store e (resolve e.symbolName e.ordinal) st) st, (Dyld.bindEvents pass s).2) :=
  Dyld.bindOps_map (f := fun l : List BindEvent => l.foldl (fun st e => store e (resolve e.symbolName e.ordinal) st) st)
    (fun e _ l => by rw [List.foldl_append, List.foldl_cons, List.foldl_nil]) _ _ _ _ _ _ []

end Runs

/-- On the same bytes, the builder and dyld decode the same rebases, and (for a stream
    of at most a million opcodes) the same binds and lazy binds: they fault on the same
    streams, and on every other the events are equal. -/
theorem opcode_events_agree :
    (∀ s : Stream, Dyld.rebaseEvents s = Builder.rebaseEvents s) ∧
    ∀ (pass : Nat) (s : Stream), opcodeCount s ≤ 1000000 →
      (Dyld.bindEvents pass s).2 = (Builder.bindEvents pass s).2 ∧
      ((Builder.bindEvents pass s).2 = true → (Dyld.bindEvents pass s).1 = (Builder.bindEvents pass s).1) := by
  constructor
  · intro s
    exact (rebaseOps_agree _ _ _ _ _ _ _).symm
  · intro pass s hs
    exact bindOps_agree _ _ pass _ _ 0 _ _ _ (by simpa [opcodeCount, Dyld.opcodeLimit] using hs)

/-- A stream that sets an ordinal, a name and a segment, binds, and binds twice more
    with a skip. -/
def twoBinds : Stream :=
  { bytes := [0x11, 0x40, 0x5F, 0x61, 0x00, 0x72, 0x10, 0x90, 0xC0, 0x02, 0x08, 0x00], size := 12 }

theorem opcode_events_agree_twoBinds :
    opcodeCount twoBinds ≤ 1000000 ∧
    (Dyld.bindEvents 0 twoBinds).1 = [⟨2, 0x10, cstr "_a", 1, 0, false⟩, ⟨2, 0x18, cstr "_a", 1, 0, false⟩,
      ⟨2, 0x28, cstr "_a", 1, 0, false⟩] := by
  have h : opcodeCount twoBinds ≤ 1000000 := by decide
  refine ⟨h, ?_⟩
  rw [(opcode_events_agree.2 0 twoBinds h).2 (by decide)]
  decide

end Panthera.Fixups
