/-
  Panthera.Storage.Ata — reads and writes of the ATA driver
  (`PantheraATAStorage.cpp`: `doAsyncReadWrite`,
  `executeSectors`, `setLBA48`, `identifyDevice`).

  A request is checked against the last sector of the device once, in 64-bit arithmetic,
  and then cut into commands of at most 256 sectors. The device is a `Provider` that may
  fail any call. Locks, the buffer's bytes and what `configureDevice` tells the registry are
  left out.

  Proved: the sectors that some device can be made to see are those of the request whose
  command starts at an address that the command set can name (`named_iff`). They are all on
  the device if the sum in the check does not come around, or if the addresses run out
  before the device does (`sectors_on_device_iff`).
-/

import Mathlib.Tactic

namespace Panthera.Storage

/-! ## Commands -/

abbrev IOReturn := UInt32

def ioReturnSuccess : IOReturn := 0

def ioReturnNoMemory : IOReturn := 0xe00002bd

def ioReturnBadArgument : IOReturn := 0xe00002c2

def ioReturnUnsupported : IOReturn := 0xe00002c7

def ioReturnIOError : IOReturn := 0xe00002ca

def ioReturnNoMedia : IOReturn := 0xe00002e4

inductive Opcode where
  | read
  | write
  | readDMA
  | writeDMA
  | readExtended
  | writeExtended
  | readDMAExtended
  | writeDMAExtended
  deriving DecidableEq, Repr

/-- `mATAFlagUseConfigSpeed` is always set. -/
structure Flags where
  write : Bool
  useDMA : Bool
  useNoIRQ : Bool
  lba48 : Bool
  deriving DecidableEq, Repr

/-- `mATALBASelect` -/
def lbaSelect : UInt8 := 0x40

/-- The registers of a 48-bit command, each with its previous byte above its current one. -/
structure ExtendedLBA where
  low16 : UInt16
  mid16 : UInt16
  high16 : UInt16
  device : UInt8
  sectorCount16 : UInt16
  deriving DecidableEq, Repr

inductive Address where
  | lba28 (lba : UInt32) (sectorCount : UInt8)
  | lba48 (registers : ExtendedLBA)
  deriving DecidableEq, Repr

structure Command where
  flags : Flags
  unit : UInt8
  opcode : Opcode
  address : Address
  position : UInt64
  byteCount : UInt64
  deriving DecidableEq, Repr

/-- The first sector that the device is told. -/
def Address.first : Address → Nat
  | .lba28 lba _ => lba.toNat
  | .lba48 r => r.low16.toNat % 256 + 2 ^ 8 * (r.mid16.toNat % 256) + 2 ^ 16 * (r.high16.toNat % 256) +
      2 ^ 24 * (r.low16.toNat / 256) + 2 ^ 32 * (r.mid16.toNat / 256) + 2 ^ 40 * (r.high16.toNat / 256)

/-- How many sectors it is told; no sectors are as many as the register can count. -/
def Address.count : Address → Nat
  | .lba28 _ sectorCount => if sectorCount = 0 then 256 else sectorCount.toNat
  | .lba48 r => if r.sectorCount16 = 0 then 65536 else r.sectorCount16.toNat

def Command.Names (c : Command) (sector : Nat) : Prop := c.address.first ≤ sector ∧ sector < c.address.first + c.address.count

instance (c : Command) (sector : Nat) : Decidable (c.Names sector) := inferInstanceAs (Decidable (_ ∧ _))

/-! ## The driver -/

/-- What the driver asks of the device below it. A command may be refused, and may come without
    registers for 48 bits. -/
structure Provider (σ : Type) where
  unitID : UInt8
  allocCommand : σ → Option Bool × σ
  setLBA28 : UInt32 → σ → IOReturn × σ
  executeCommand : Command → σ → IOReturn × σ

/-- What the driver keeps of the device. -/
structure Drive where
  maxBlock : UInt64
  supports48Bit : Bool
  useDMA : Bool
  useInterrupts : Bool
  deriving DecidableEq, Repr

/-- `identifyDevice`, from the words that the device answered. -/
def identifyDevice (words : Nat → UInt16) (useDMA useInterrupts : Bool) : Except IOReturn Drive :=
  let supports48Bit := words 83 &&& 0x400 ≠ 0
  let sectors28 : UInt64 := ((words 61).toUInt64 <<< 16) ||| (words 60).toUInt64
  let sectors48 : UInt64 := (words 100).toUInt64 ||| ((words 101).toUInt64 <<< 16) ||| ((words 102).toUInt64 <<< 32) |||
    ((words 103).toUInt64 <<< 48)
  let sectors := if supports48Bit ∧ sectors48 ≠ 0 then sectors48 else sectors28
  if sectors = 0 then .error ioReturnNoMedia else .ok ⟨sectors - 1, supports48Bit, useDMA, useInterrupts⟩

def blockSize : UInt64 := 512

/-- The registers for `lba`, or why there are none. -/
def setLBA48 (hasExtendedLBA : Bool) (lba : UInt64) (unit : UInt8) (sectorCount : UInt16) : Except IOReturn ExtendedLBA :=
  if lba &&& 0xFFFF000000000000 ≠ 0 ∨ 1 < unit then .error ioReturnBadArgument
  else if hasExtendedLBA = false then .error ioReturnUnsupported
  else
    let byte (shift : UInt64) : UInt16 := ((lba >>> shift) &&& 0xff).toUInt8.toUInt16
    .ok {
      low16 := byte 0 ||| (byte 24 <<< 8)
      mid16 := byte 8 ||| (byte 32 <<< 8)
      high16 := byte 16 ||| (byte 40 <<< 8)
      device := lbaSelect ||| (unit <<< 4)
      sectorCount16 := sectorCount }

section

variable {σ : Type} (p : Provider σ) (d : Drive) (write : Bool)

def opcodeFor (extended : Bool) : Opcode :=
  match extended, d.useDMA, write with
  | true, true, true => .writeDMAExtended
  | true, true, false => .readDMAExtended
  | true, false, true => .writeExtended
  | true, false, false => .readExtended
  | false, true, true => .writeDMA
  | false, true, false => .readDMA
  | false, false, true => .write
  | false, false, false => .read

/-- The address part of a command for `chunkBlocks` sectors from `currentBlock` on. -/
def addressFor (hasExtendedLBA : Bool) (currentBlock : UInt64) (chunkBlocks : UInt16) (s : σ) : Except IOReturn Address × σ :=
  if d.supports48Bit then ((setLBA48 hasExtendedLBA currentBlock p.unitID chunkBlocks).map .lba48, s)
  else if 0x0fffffff < currentBlock then (.error ioReturnUnsupported, s)
  else
    let r := p.setLBA28 currentBlock.toUInt32 s
    (if r.1 ≠ ioReturnSuccess then .error r.1
      else .ok (.lba28 currentBlock.toUInt32 (if chunkBlocks = 256 then 0 else chunkBlocks.toUInt8)), r.2)

/-- How a request ended: its status, the bytes transferred, the commands that the device was
    given, in order. -/
structure Outcome where
  status : IOReturn
  actualBytes : UInt64
  commands : List Command
  deriving DecidableEq, Repr

def chunkOf (remaining : UInt64) : UInt16 := if 256 < remaining then 256 else remaining.toUInt16

/-- The loop of `executeSectors`; `none` if there are more turns than `fuel`. -/
def sectorLoop : Nat → UInt64 → UInt64 → UInt64 → σ → Option Outcome
  | 0, _, _, _, _ => none
  | fuel + 1, remaining, currentBlock, transferred, s =>
    if remaining = 0 then some ⟨ioReturnSuccess, transferred, []⟩
    else
      let chunkBlocks := chunkOf remaining
      let chunkBytes := chunkBlocks.toUInt64 * blockSize
      match p.allocCommand s with
      | (none, _) => some ⟨ioReturnNoMemory, transferred, []⟩
      | (some hasExtendedLBA, s) =>
        match addressFor p d hasExtendedLBA currentBlock chunkBlocks s with
        | (.error status, _) => some ⟨status, transferred, []⟩
        | (.ok address, s) =>
          let command : Command := {
            flags := ⟨write, d.useDMA, !d.useInterrupts, d.supports48Bit⟩
            unit := p.unitID
            opcode := opcodeFor d write d.supports48Bit
            address := address
            position := transferred
            byteCount := chunkBytes }
          match p.executeCommand command s with
          | (status, s) =>
            if status ≠ ioReturnSuccess then some ⟨status, transferred, [command]⟩
            else
              (sectorLoop fuel (remaining - chunkBlocks.toUInt64) (currentBlock + chunkBlocks.toUInt64) (transferred + chunkBytes)
                s).map fun o => { o with commands := command :: o.commands }

def executeSectors (block nblks : UInt64) (s : σ) : Option Outcome := sectorLoop p d write (nblks.toNat + 1) nblks block 0 s

/-- What lets a request through. -/
def Admitted (block nblks : UInt64) : Prop := nblks ≠ 0 ∧ block ≤ d.maxBlock ∧ block + nblks - 1 ≤ d.maxBlock

instance (block nblks : UInt64) : Decidable (Admitted d block nblks) := inferInstanceAs (Decidable (_ ∧ _))

/-- `doAsyncReadWrite`, as it reports to its completion; `buffer` is the direction of the
    buffer, if there is one. -/
def doAsyncReadWrite (buffer : Option Bool) (block nblks : UInt64) (s : σ) : Option Outcome :=
  match buffer with
  | none => some ⟨ioReturnBadArgument, 0, []⟩
  | some write => if Admitted d block nblks then executeSectors p d write block nblks s else some ⟨ioReturnBadArgument, 0, []⟩

end

/-! ## What a command names -/

/-- The last address that the command set of the device can name. -/
def Drive.limit (d : Drive) : Nat := if d.supports48Bit then 2 ^ 48 - 1 else 0x0fffffff

theorem Drive.limit_lt (d : Drive) : d.limit < 2 ^ 48 := by
  unfold Drive.limit
  split <;> decide

theorem toNat_byte (lba : UInt64) {shift : UInt64} (h : shift.toNat < 64) :
    (((lba >>> shift) &&& 0xff).toUInt8.toUInt16).toNat = lba.toNat / 2 ^ shift.toNat % 256 := by
  have hmask : ∀ n : Nat, n &&& 255 = n % 256 := fun n => Nat.and_two_pow_sub_one_eq_mod n 8
  simp [UInt64.toNat_shiftRight, Nat.mod_eq_of_lt h, Nat.shiftRight_eq_div_pow, hmask]

/-- A register made of two bytes. -/
theorem toNat_register {current previous : UInt16} (hc : current.toNat < 256) (hp : previous.toNat < 256) :
    (current ||| (previous <<< 8)).toNat = current.toNat + 256 * previous.toNat := by
  have hor : previous.toNat <<< 8 ||| current.toNat = previous.toNat <<< 8 + current.toNat :=
    (Nat.shiftLeft_add_eq_or_of_lt hc _).symm
  have hshift : previous.toNat <<< 8 % 2 ^ 16 = previous.toNat <<< 8 := by
    rw [Nat.shiftLeft_eq]
    omega
  rw [UInt16.toNat_or, UInt16.toNat_shiftLeft, show (8 : UInt16).toNat % 16 = 8 from rfl, hshift, Nat.or_comm, hor,
    Nat.shiftLeft_eq]
  omega

theorem high_bits_zero_iff (lba : UInt64) : lba &&& 0xFFFF000000000000 = 0 ↔ lba.toNat < 2 ^ 48 := by
  have hlt := lba.toNat_lt
  have hdiv : (lba.toNat &&& 0xFFFF000000000000) / 2 ^ 48 = lba.toNat / 2 ^ 48 := by
    rw [Nat.and_div_two_pow, show 0xFFFF000000000000 / 2 ^ 48 = 2 ^ 16 - 1 by decide, Nat.and_two_pow_sub_one_eq_mod]
    omega
  have hmod : (lba.toNat &&& 0xFFFF000000000000) % 2 ^ 48 = 0 := by
    rw [Nat.and_mod_two_pow, show 0xFFFF000000000000 % 2 ^ 48 = 0 by decide, Nat.and_zero]
  rw [← UInt64.toNat_inj, UInt64.toNat_and, show (0xFFFF000000000000 : UInt64).toNat = 0xFFFF000000000000 from rfl,
    show (0 : UInt64).toNat = 0 from rfl]
  omega

variable {hasExtendedLBA : Bool} {currentBlock : UInt64} {d : Drive}

/-- The registers spell the address, and only addresses of 48 bits get any. -/
theorem setLBA48_ok {lba : UInt64} {unit : UInt8} {sectorCount : UInt16} {r : ExtendedLBA}
    (h : setLBA48 hasExtendedLBA lba unit sectorCount = .ok r) :
    lba.toNat < 2 ^ 48 ∧ (Address.lba48 r).first = lba.toNat ∧ r.sectorCount16 = sectorCount := by
  unfold setLBA48 at h
  split at h
  · cases h
  · rename_i hguard
    split at h
    · cases h
    · have hlow := (high_bits_zero_iff lba).mp (not_not.mp fun hne => hguard (.inl hne))
      cases h
      have hbyte : ∀ shift : UInt64, shift.toNat < 64 → (((lba >>> shift) &&& 0xff).toUInt8.toUInt16).toNat < 256 := by
        intro shift hshift
        rw [toNat_byte lba hshift]
        exact Nat.mod_lt _ (by decide)
      refine ⟨hlow, ?_, rfl⟩
      simp only [Address.first]
      rw [toNat_register (hbyte 0 (by decide)) (hbyte 24 (by decide)), toNat_register (hbyte 8 (by decide)) (hbyte 32 (by decide)),
        toNat_register (hbyte 16 (by decide)) (hbyte 40 (by decide)), @toNat_byte lba 0 (by decide),
        @toNat_byte lba 8 (by decide), @toNat_byte lba 16 (by decide), @toNat_byte lba 24 (by decide),
        @toNat_byte lba 32 (by decide), @toNat_byte lba 40 (by decide)]
      simp only [UInt64.reduceToNat]
      omega

theorem setLBA48_of_lt {lba : UInt64} (h : lba.toNat < 2 ^ 48) (sectorCount : UInt16) :
    ∃ r, setLBA48 true lba 0 sectorCount = .ok r := by
  have hzero : lba &&& 0xFFFF000000000000 = 0 := (high_bits_zero_iff lba).mpr h
  exact ⟨_, by rw [setLBA48, if_neg (by rw [hzero]; decide), if_neg (by decide)]⟩

theorem toNat_chunkOf (remaining : UInt64) : (chunkOf remaining).toNat = min 256 remaining.toNat := by
  unfold chunkOf
  have hlt : (256 : UInt64) < remaining ↔ 256 < remaining.toNat := UInt64.lt_iff_toNat_lt
  split
  · rename_i h
    rw [Nat.min_eq_left (Nat.le_of_lt (hlt.mp h))]
    rfl
  · rename_i h
    have hle : remaining.toNat ≤ 256 := Nat.le_of_not_lt fun hc => h (hlt.mpr hc)
    rw [UInt64.toNat_toUInt16, Nat.min_eq_right hle]
    omega

section

variable {σ : Type} {p : Provider σ} {d : Drive} {write : Bool} {chunkBlocks : UInt16} {s s' : σ} {a : Address}

/-- The two ways to an address. -/
theorem addressFor_cases (h : addressFor p d hasExtendedLBA currentBlock chunkBlocks s = (.ok a, s')) :
    (d.supports48Bit = true ∧ s' = s ∧ ∃ r, setLBA48 hasExtendedLBA currentBlock p.unitID chunkBlocks = .ok r ∧ a = .lba48 r) ∨
    (d.supports48Bit = false ∧ currentBlock.toNat ≤ 0x0fffffff ∧ s' = (p.setLBA28 currentBlock.toUInt32 s).2 ∧
      a = .lba28 currentBlock.toUInt32 (if chunkBlocks = 256 then 0 else chunkBlocks.toUInt8)) := by
  unfold addressFor at h
  split at h
  · rename_i h48
    obtain ⟨hmap, rfl⟩ := Prod.mk.inj h
    cases hset : setLBA48 hasExtendedLBA currentBlock p.unitID chunkBlocks with
    | error e =>
      rw [hset] at hmap
      cases hmap
    | ok r =>
      rw [hset] at hmap
      exact .inl ⟨h48, rfl, r, rfl, (Except.ok.inj hmap).symm⟩
  · rename_i h48
    split at h
    · cases h
    · rename_i hlow
      obtain ⟨hok, rfl⟩ := Prod.mk.inj h
      split at hok
      · cases hok
      · exact .inr ⟨Bool.eq_false_of_not_eq_true h48, UInt64.not_lt.mp hlow, rfl, (Except.ok.inj hok).symm⟩

/-- Whatever address a command gets, it is the block's, and one that the command set can name. -/
theorem addressFor_ok (hpos : 0 < chunkBlocks.toNat) (hle : chunkBlocks.toNat ≤ 256)
    (h : addressFor p d hasExtendedLBA currentBlock chunkBlocks s = (.ok a, s')) :
    currentBlock.toNat ≤ d.limit ∧ a.first = currentBlock.toNat ∧ a.count = chunkBlocks.toNat := by
  rcases addressFor_cases h with ⟨h48, -, r, hset, rfl⟩ | ⟨h48, hle28, -, rfl⟩
  · obtain ⟨hlt, hfirst, hcount⟩ := setLBA48_ok hset
    have hne : chunkBlocks ≠ 0 := fun h0 => by simp [h0] at hpos
    refine ⟨?_, hfirst, ?_⟩
    · rw [Drive.limit, if_pos h48]
      omega
    · rw [Address.count, hcount, if_neg hne]
  · refine ⟨by rwa [Drive.limit, if_neg (by rw [h48]; decide)], ?_, ?_⟩
    · rw [Address.first, UInt64.toNat_toUInt32]
      omega
    · rw [Address.count]
      by_cases h256 : chunkBlocks = 256
      · rw [h256]
        rfl
      · have hlt : chunkBlocks.toNat < 256 := by
          refine Nat.lt_of_le_of_ne hle fun heq => h256 (UInt16.toNat_inj.mp heq)
        have hbyte : chunkBlocks.toUInt8.toNat = chunkBlocks.toNat := by
          rw [UInt16.toNat_toUInt8]
          omega
        have hne : chunkBlocks.toUInt8 ≠ 0 := fun h0 => by
          rw [h0] at hbyte
          exact absurd hbyte.symm (Nat.ne_of_gt hpos)
        rw [if_neg h256, if_neg hne, hbyte]

/-! ## The loop -/

/-- A command of the loop: the `k`-th chunk of the request. -/
structure Chunk (d : Drive) (block nblks : Nat) (k : Nat) (c : Command) : Prop where
  inside : 256 * k < nblks
  nameable : block + 256 * k ≤ d.limit
  first : c.address.first = block + 256 * k
  count : c.address.count = min 256 (nblks - 256 * k)

/-- What a turn leaves to do. -/
theorem turn_remaining (remaining : UInt64) :
    (remaining - (chunkOf remaining).toUInt64).toNat = remaining.toNat - min 256 remaining.toNat := by
  have hchunk : (chunkOf remaining).toUInt64.toNat = min 256 remaining.toNat := by
    rw [UInt16.toNat_toUInt64, toNat_chunkOf]
  have hlt := remaining.toNat_lt
  rw [UInt64.toNat_sub, hchunk]
  omega

theorem turn_currentBlock (h : currentBlock.toNat ≤ d.limit) (remaining : UInt64) :
    (currentBlock + (chunkOf remaining).toUInt64).toNat = currentBlock.toNat + min 256 remaining.toNat := by
  have hlimit := d.limit_lt
  rw [UInt64.toNat_add, UInt16.toNat_toUInt64, toNat_chunkOf]
  omega

/-- The command of a turn is the first chunk of what is left, and the chunks of the rest are
    those of the whole. -/
theorem Chunk.succ {block nblks k : Nat} {c : Command} (h : Chunk d (block + min 256 nblks) (nblks - min 256 nblks) k c) :
    Chunk d block nblks (k + 1) c := by
  have hinside := h.inside
  have hfull : min 256 nblks = 256 := by omega
  rw [hfull] at h
  obtain ⟨hin, hname, hfirst, hcount⟩ := h
  refine ⟨by omega, by omega, by omega, ?_⟩
  rw [hcount, show nblks - 256 - 256 * k = nblks - 256 * (k + 1) by omega]

/-- The command of a turn. -/
theorem Chunk.of_address {remaining : UInt64} (hne : remaining ≠ 0) {s s' : σ} {c : Command}
    (h : addressFor p d hasExtendedLBA currentBlock (chunkOf remaining) s = (.ok c.address, s')) :
    Chunk d currentBlock.toNat remaining.toNat 0 c := by
  have hpos : 0 < remaining.toNat := Nat.pos_of_ne_zero fun h0 => hne (UInt64.toNat_inj.mp h0)
  have hchunk := toNat_chunkOf remaining
  obtain ⟨hlimit, hfirst, hcount⟩ := addressFor_ok (by omega) (by omega) h
  exact ⟨by omega, by simpa using hlimit, by simpa using hfirst, by simpa [hchunk] using hcount⟩

/-- Every command that is issued is a chunk of the request. -/
theorem sectorLoop_chunks : ∀ {fuel : Nat} {remaining currentBlock transferred : UInt64} {s : σ} {o : Outcome},
    sectorLoop p d write fuel remaining currentBlock transferred s = some o →
    ∀ c ∈ o.commands, ∃ k, Chunk d currentBlock.toNat remaining.toNat k c := by
  intro fuel
  induction fuel with
  | zero => intro remaining currentBlock transferred s o h; cases h
  | succ fuel ih =>
    intro remaining currentBlock transferred s o h c hc
    rw [sectorLoop] at h
    split at h
    · cases h
      cases hc
    · rename_i hne
      simp only at h
      split at h
      · cases h
        cases hc
      · split at h
        · cases h
          cases hc
        · rename_i a s₂ haddr
          have hthis : ∀ c : Command, c.address = a → Chunk d currentBlock.toNat remaining.toNat 0 c := fun c hca =>
            .of_address hne (hca ▸ haddr)
          split at h
          · rw [Option.some.injEq] at h
            subst h
            rw [List.mem_singleton] at hc
            exact ⟨0, hthis c (hc ▸ rfl)⟩
          · obtain ⟨o', ho', rfl⟩ := Option.map_eq_some_iff.mp h
            rcases List.mem_cons.mp hc with rfl | hc
            · exact ⟨0, hthis _ rfl⟩
            · obtain ⟨k, hk⟩ := ih ho' c hc
              have hlimit : currentBlock.toNat ≤ d.limit := (hthis ⟨⟨true, true, true, true⟩, 0, .read, a, 0, 0⟩ rfl).nameable
              rw [turn_currentBlock hlimit, turn_remaining] at hk
              exact ⟨k + 1, hk.succ⟩

theorem sectorLoop_isSome : ∀ {fuel : Nat} {remaining currentBlock transferred : UInt64} {s : σ}, remaining.toNat < fuel →
    ∃ o, sectorLoop p d write fuel remaining currentBlock transferred s = some o := by
  intro fuel
  induction fuel with
  | zero => intro remaining currentBlock transferred s h; omega
  | succ fuel ih =>
    intro remaining currentBlock transferred s h
    rw [sectorLoop]
    split
    · exact ⟨_, rfl⟩
    · rename_i hne
      have hpos : 0 < remaining.toNat := Nat.pos_of_ne_zero fun h0 => hne (UInt64.toNat_inj.mp h0)
      simp only
      split
      · exact ⟨_, rfl⟩
      · split
        · exact ⟨_, rfl⟩
        · split
          · exact ⟨_, rfl⟩
          · have hless : (remaining - (chunkOf remaining).toUInt64).toNat < fuel := by
              rw [turn_remaining]
              omega
            obtain ⟨o, ho⟩ := ih hless
            exact ⟨_, by rw [ho]; rfl⟩

end

/-! ## A device that refuses nothing -/

def willing : Provider Unit where
  unitID := 0
  allocCommand s := (some true, s)
  setLBA28 _ s := (ioReturnSuccess, s)
  executeCommand _ s := (ioReturnSuccess, s)

theorem willing_addressFor (h : currentBlock.toNat ≤ d.limit) (chunkBlocks : UInt16) :
    ∃ a, addressFor willing d true currentBlock chunkBlocks () = (.ok a, ()) := by
  unfold addressFor
  by_cases h48 : d.supports48Bit = true
  · rw [Drive.limit, if_pos h48] at h
    obtain ⟨r, hr⟩ := setLBA48_of_lt (show currentBlock.toNat < 2 ^ 48 by omega) chunkBlocks
    refine ⟨.lba48 r, ?_⟩
    rw [if_pos h48, show willing.unitID = 0 from rfl, hr]
    rfl
  · rw [Drive.limit, if_neg h48] at h
    refine ⟨.lba28 currentBlock.toUInt32 (if chunkBlocks = 256 then 0 else chunkBlocks.toUInt8), ?_⟩
    rw [if_neg h48, if_neg (by rw [UInt64.lt_iff_toNat_lt]; exact Nat.not_lt_of_le h)]
    rfl

theorem willing_turn {remaining : UInt64} (hne : remaining ≠ 0) (h : currentBlock.toNat ≤ d.limit)
    (write : Bool) (fuel : Nat) (transferred : UInt64) :
    ∃ c, Chunk d currentBlock.toNat remaining.toNat 0 c ∧
      sectorLoop willing d write (fuel + 1) remaining currentBlock transferred () =
        (sectorLoop willing d write fuel (remaining - (chunkOf remaining).toUInt64) (currentBlock + (chunkOf remaining).toUInt64)
          (transferred + (chunkOf remaining).toUInt64 * blockSize) ()).map fun o => { o with commands := c :: o.commands } := by
  obtain ⟨a, ha⟩ := willing_addressFor h (chunkOf remaining)
  refine ⟨⟨⟨write, d.useDMA, !d.useInterrupts, d.supports48Bit⟩, 0, opcodeFor d write d.supports48Bit, a, transferred,
    (chunkOf remaining).toUInt64 * blockSize⟩, .of_address hne ha, ?_⟩
  rw [sectorLoop, if_neg hne]
  simp only [willing] at ha ⊢
  rw [ha]
  rfl

/-- It is given every chunk up to the first that cannot be named. -/
theorem willing_chunks {write : Bool} : ∀ {k fuel : Nat} {remaining currentBlock transferred : UInt64}, remaining.toNat < fuel →
    256 * k < remaining.toNat → currentBlock.toNat + 256 * k ≤ d.limit →
    ∃ o, sectorLoop willing d write fuel remaining currentBlock transferred () = some o ∧
      ∃ c ∈ o.commands, Chunk d currentBlock.toNat remaining.toNat k c := by
  intro k
  induction k with
  | zero =>
    intro fuel remaining currentBlock transferred hfuel hk hlimit
    obtain ⟨fuel, rfl⟩ : ∃ n, fuel = n + 1 := ⟨fuel - 1, by omega⟩
    have hne : remaining ≠ 0 := fun h0 => by simp [h0] at hk
    obtain ⟨c, hchunk, hloop⟩ := willing_turn hne hlimit write fuel transferred
    have hless : (remaining - (chunkOf remaining).toUInt64).toNat < fuel := by
      rw [turn_remaining]
      omega
    obtain ⟨o, ho⟩ := sectorLoop_isSome hless
    exact ⟨_, by rw [hloop, ho]; rfl, c, List.mem_cons_self, hchunk⟩
  | succ k ih =>
    intro fuel remaining currentBlock transferred hfuel hk hlimit
    obtain ⟨fuel, rfl⟩ : ∃ n, fuel = n + 1 := ⟨fuel - 1, by omega⟩
    have hne : remaining ≠ 0 := fun h0 => by simp [h0] at hk
    have hhere : currentBlock.toNat ≤ d.limit := by omega
    obtain ⟨c, -, hloop⟩ := willing_turn hne hhere write fuel transferred
    have hremaining := turn_remaining remaining
    have hcurrent := turn_currentBlock hhere remaining
    have hless : (remaining - (chunkOf remaining).toUInt64).toNat < fuel := by omega
    have hmore : 256 * k < (remaining - (chunkOf remaining).toUInt64).toNat := by omega
    have hnext : (currentBlock + (chunkOf remaining).toUInt64).toNat + 256 * k ≤ d.limit := by omega
    obtain ⟨o, ho, c', hc', hchunk⟩ := ih hless hmore hnext
    rw [hcurrent, hremaining] at hchunk
    exact ⟨_, by rw [hloop, ho]; rfl, c', List.mem_cons_of_mem _ hc', hchunk.succ⟩

/-! ## The sectors of a request -/

/-- Every request comes to an end. -/
theorem doAsyncReadWrite_isSome {σ : Type} (p : Provider σ) (d : Drive) (buffer : Option Bool) (block nblks : UInt64) (s : σ) :
    ∃ o, doAsyncReadWrite p d buffer block nblks s = some o := by
  cases buffer with
  | none => exact ⟨_, rfl⟩
  | some write =>
    rw [doAsyncReadWrite]
    split
    · exact sectorLoop_isSome (Nat.lt_succ_self _)
    · exact ⟨_, rfl⟩

/-- What some device can be made to see by a request that is let through: the sectors of the
    chunks that can be named. -/
theorem named_iff {block nblks : UInt64} (h : Admitted d block nblks) (sector : Nat) :
    (∃ (σ : Type) (p : Provider σ) (buffer : Option Bool) (s : σ) (o : Outcome),
      doAsyncReadWrite p d buffer block nblks s = some o ∧ ∃ c ∈ o.commands, c.Names sector) ↔
      ∃ i < nblks.toNat, sector = block.toNat + i ∧ block.toNat + 256 * (i / 256) ≤ d.limit := by
  constructor
  · rintro ⟨σ, p, buffer, s, o, ho, c, hc, hlow, hhigh⟩
    cases buffer with
    | none =>
      cases ho
      cases hc
    | some write =>
      rw [doAsyncReadWrite, if_pos h] at ho
      obtain ⟨k, hk⟩ := sectorLoop_chunks ho c hc
      have hfirst := hk.first
      have hcount := hk.count
      have hname := hk.nameable
      refine ⟨sector - block.toNat, by omega, by omega, ?_⟩
      rw [show (sector - block.toNat) / 256 = k by omega]
      exact hname
  · rintro ⟨i, hi, rfl, hname⟩
    obtain ⟨o, ho, c, hc, hk⟩ := willing_chunks (Nat.lt_succ_self nblks.toNat) (show 256 * (i / 256) < nblks.toNat by omega) hname
    have hfirst := hk.first
    have hcount := hk.count
    exact ⟨Unit, willing, some false, (), o, by rw [doAsyncReadWrite, if_pos h]; exact ho, c, hc, by omega, by omega⟩

/-- The sum of the check is exact; or not even the first sector can be named; or the last chunk
    that can be named ends on the device. -/
def Covered (d : Drive) (block nblks : UInt64) : Prop :=
  block.toNat + nblks.toNat ≤ 2 ^ 64 ∨ d.limit < block.toNat ∨
    block.toNat + 256 * ((d.limit - block.toNat) / 256) + 255 ≤ d.maxBlock.toNat

instance (d : Drive) (block nblks : UInt64) : Decidable (Covered d block nblks) := inferInstanceAs (Decidable (_ ∨ _))

theorem covered_iff {block nblks : UInt64} (h : Admitted d block nblks) :
    (∀ i < nblks.toNat, block.toNat + 256 * (i / 256) ≤ d.limit → block.toNat + i ≤ d.maxBlock.toNat) ↔ Covered d block nblks := by
  obtain ⟨hne, hblock, hlast⟩ := h
  have hpos : 0 < nblks.toNat := Nat.pos_of_ne_zero fun h0 => hne (UInt64.toNat_inj.mp h0)
  have hlimit := d.limit_lt
  have hb := block.toNat_lt
  have hn := nblks.toNat_lt
  rw [UInt64.le_iff_toNat_le] at hblock hlast
  rw [UInt64.toNat_sub, UInt64.toNat_add, show (1 : UInt64).toNat = 1 from rfl] at hlast
  constructor
  · intro hall
    by_contra hnot
    simp only [Covered, not_or, Nat.not_le, Nat.not_lt] at hnot
    obtain ⟨hwrap, hname, hend⟩ := hnot
    have hlastChunk := hall (256 * ((d.limit - block.toNat) / 256) + 255) (by omega) (by omega)
    omega
  · rintro (hexact | hout | hend) i hi hname
    · omega
    · omega
    · have hdiv : i / 256 ≤ (d.limit - block.toNat) / 256 := by omega
      omega

/-- A request names sectors of the device only, on every device that behaves in any way, exactly
    if it is refused or `Covered`. -/
theorem sectors_on_device_iff (d : Drive) (block nblks : UInt64) :
    (∀ (σ : Type) (p : Provider σ) (buffer : Option Bool) (s : σ), ∃ o, doAsyncReadWrite p d buffer block nblks s = some o ∧
      ∀ c ∈ o.commands, ∀ sector, c.Names sector → sector ≤ d.maxBlock.toNat) ↔
      (Admitted d block nblks → Covered d block nblks) := by
  constructor
  · intro hall hadm
    refine (covered_iff hadm).mp fun i hi hname => ?_
    obtain ⟨σ, p, buffer, s, o, ho, c, hc, hnames⟩ := (named_iff hadm _).mpr ⟨i, hi, rfl, hname⟩
    obtain ⟨o', ho', hsectors⟩ := hall σ p buffer s
    obtain rfl := Option.some.inj (ho.symm.trans ho')
    exact hsectors c hc _ hnames
  · intro hcov σ p buffer s
    obtain ⟨o, ho⟩ := doAsyncReadWrite_isSome p d buffer block nblks s
    refine ⟨o, ho, fun c hc sector hnames => ?_⟩
    by_cases hadm : Admitted d block nblks
    · obtain ⟨i, hi, rfl, hname⟩ := (named_iff hadm sector).mp ⟨σ, p, buffer, s, o, ho, c, hc, hnames⟩
      exact (covered_iff hadm).mpr (hcov hadm) i hi hname
    · -- a refused request issues no command
      cases buffer with
      | none =>
        cases ho
        cases hc
      | some write =>
        rw [doAsyncReadWrite, if_neg hadm] at ho
        cases ho
        cases hc

/-- The answer of a device of 1000 sectors that has the 48-bit commands. -/
def thousandSectors (word : Nat) : UInt16 := if word = 83 then 0x400 else if word = 100 then 1000 else 0

/-- A device that fails what reaches past its last sector. -/
def checking (sectors : Nat) : Provider Unit where
  unitID := 0
  allocCommand s := (some true, s)
  setLBA28 _ s := (ioReturnSuccess, s)
  executeCommand c s := (if c.address.first + c.address.count ≤ sectors then ioReturnSuccess else ioReturnIOError, s)

/-- The sum of the check comes around to 0: the request is let through, three commands are
    carried out, and the fourth names sector 1000. -/
theorem request_past_the_end : ∃ d o, identifyDevice thousandSectors true true = .ok d ∧ d.maxBlock = 999 ∧
    doAsyncReadWrite (checking 1000) d (some false) 2 0xffffffffffffffff () = some o ∧
    ∃ c ∈ o.commands, c.Names 1000 := by
  have hd : identifyDevice thousandSectors true true = .ok ⟨999, true, true, true⟩ := by decide
  have ho : (doAsyncReadWrite (checking 1000) ⟨999, true, true, true⟩ (some false) 2 0xffffffffffffffff ()).map
      (fun o => o.commands.map fun c => (c.address.first, c.address.count)) = some [(2, 256), (258, 256), (514, 256), (770, 256)] := by
    decide
  obtain ⟨o, hrun, hcommands⟩ := Option.map_eq_some_iff.mp ho
  have hmem : (770, 256) ∈ o.commands.map fun c => (c.address.first, c.address.count) := by
    rw [hcommands]
    decide
  obtain ⟨c, hc, hca⟩ := List.mem_map.mp hmem
  obtain ⟨hfirst, hcount⟩ := Prod.mk.inj hca
  exact ⟨_, o, hd, rfl, hrun, c, hc, by omega, by omega⟩

end Panthera.Storage
