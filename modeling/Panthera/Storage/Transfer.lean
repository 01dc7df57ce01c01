/-
  Panthera.Storage.Transfer — what a request of the ATA driver amounts to
  (`PantheraATAStorage.cpp`: `executeSectors`,
  `executePolledCommand`).

  The device is any `Provider`. `Provider.replies` plays the commands of an outcome back to
  it, so that what it answered to each of them can be spoken of.

  Main result: `executeSectors_carried`. The request may be any: a sector that the command
  set cannot name begins no command, so that no count of the loop comes around.
-/

import Panthera.Storage.Ata

namespace Panthera.Storage

/-- How many sectors the commands name together. -/
def sectors (commands : List Command) : Nat := (commands.map fun c => c.address.count).sum

@[simp] theorem sectors_nil : sectors [] = 0 := rfl

@[simp] theorem sectors_cons (c : Command) (commands : List Command) :
    sectors (c :: commands) = c.address.count + sectors commands := List.sum_cons

def Opcode.extended : Opcode → Bool
  | .readExtended | .writeExtended | .readDMAExtended | .writeDMAExtended => true
  | _ => false

/-- The registers are laid out as the opcode has them, and 28 bits hold the address of a command
    that is not extended. -/
def Command.Readable (c : Command) : Prop :=
  match c.address with
  | .lba28 lba _ => c.opcode.extended = false ∧ lba.toNat < 2 ^ 28
  | .lba48 _ => c.opcode.extended = true

section

variable {σ : Type} (p : Provider σ)

/-- The state in which the device is given `c`. -/
def Provider.prepared (c : Command) (s : σ) : σ :=
  match c.address with
  | .lba28 lba _ => (p.setLBA28 lba (p.allocCommand s).2).2
  | .lba48 _ => (p.allocCommand s).2

/-- What the device answered to the commands of a request, in order. -/
def Provider.replies : List Command → σ → List IOReturn
  | [], _ => []
  | c :: commands, s =>
    let r := p.executeCommand c (p.prepared c s)
    r.1 :: Provider.replies commands r.2

/-- The state after these commands. -/
def Provider.after : List Command → σ → σ
  | [], s => s
  | c :: commands, s => Provider.after commands (p.executeCommand c (p.prepared c s)).2

/-- Why there is no command for `sector`: none is to be had, or it cannot be given the address. -/
def Provider.Refuses (d : Drive) (s : σ) (sector : Nat) (status : IOReturn) : Prop :=
  match p.allocCommand s with
  | (none, _) => status = ioReturnNoMemory
  | (some hasExtendedLBA, s) =>
    if d.supports48Bit then
      status = ioReturnBadArgument ∧ (2 ^ 48 ≤ sector ∨ 1 < p.unitID) ∨ status = ioReturnUnsupported ∧ hasExtendedLBA = false
    else status = ioReturnUnsupported ∧ 2 ^ 28 ≤ sector ∨ status = (p.setLBA28 (.ofNat sector) s).1

end

/-- The commands that were carried out. -/
def successful (commands : List Command) (replies : List IOReturn) : List Command :=
  ((commands.zip replies).filter fun cr => cr.2 = ioReturnSuccess).map Prod.fst

/-- The outcome `o` of a request for the sectors `[block, block + nblks)` whose bytes lie in the
    buffer from `position` on, on a device that gave the answers `replies` and then `refuses`. -/
structure Carried (block nblks position : Nat) (replies : List IOReturn) (refuses : Nat → IOReturn → Prop) (o : Outcome) : Prop where
  /-- There is an answer to each command. -/
  answered : replies.length = o.commands.length
  /-- A command begins where those before it end. -/
  begins : ∀ before c after, o.commands = before ++ c :: after → c.address.first = block + sectors before
  readable : ∀ c ∈ o.commands, c.Readable
  size : ∀ c ∈ o.commands, 1 ≤ c.address.count ∧ c.address.count ≤ 256
  inside : sectors o.commands ≤ nblks
  /-- It has the bytes of its own sectors. -/
  bytes : ∀ c ∈ o.commands, c.position.toNat = position + 512 * (c.address.first - block) ∧
    c.byteCount.toNat = 512 * c.address.count
  /-- Only the last can have failed, and then the request has. -/
  stops : ∀ before r after, replies = before ++ r :: after → r ≠ ioReturnSuccess → after = [] ∧ o.status = r
  complete : o.status = ioReturnSuccess → sectors o.commands = nblks
  /-- What is left undone is so for a reason. -/
  failed : o.status ≠ ioReturnSuccess → replies.getLast? = some o.status ∨ refuses (block + sectors o.commands) o.status
  actual : o.actualBytes.toNat = position + 512 * sectors (successful o.commands replies)

variable {status : IOReturn} {transferred : UInt64}

/-- A request that ends before any command. -/
theorem Carried.none_issued {block nblks position : Nat} {refuses : Nat → IOReturn → Prop} (hat : transferred.toNat = position)
    (hstatus : status = ioReturnSuccess → nblks = 0) (hrefused : status ≠ ioReturnSuccess → refuses block status) :
    Carried block nblks position [] refuses ⟨status, transferred, []⟩ where
  answered := rfl
  begins before c after h := by simp at h
  readable c h := by cases h
  size c h := by cases h
  inside := Nat.zero_le _
  bytes c h := by cases h
  stops before r after h := by simp at h
  complete h := (hstatus h).symm
  failed h := .inr (hrefused h)
  actual := hat

/-- The command of a turn: the sectors at the front of the request. -/
structure Turn (block nblks position : Nat) (c : Command) : Prop where
  readable : c.Readable
  first : c.address.first = block
  count : c.address.count = min 256 nblks
  position : c.position.toNat = position
  byteCount : c.byteCount.toNat = 512 * c.address.count

section

variable {block nblks position : Nat} {c : Command} {refuses : Nat → IOReturn → Prop}

/-- The last turn, if its command fails. -/
theorem Turn.failed (h : Turn block nblks position c) (hpos : 0 < nblks) (hstatus : status ≠ ioReturnSuccess)
    (hat : transferred.toNat = position) : Carried block nblks position [status] refuses ⟨status, transferred, [c]⟩ := by
  have hcount := h.count
  refine ⟨rfl, ?_, ?_, ?_, ?_, ?_, ?_, fun hs => absurd hs hstatus, fun _ => .inl rfl, ?_⟩
  · intro before c' after hsplit
    obtain rfl : before = [] := List.eq_nil_of_length_eq_zero (by have := congrArg List.length hsplit; simp at this; omega)
    cases hsplit
    exact h.first
  · simpa using h.readable
  · simp only [List.mem_singleton, forall_eq]
    omega
  · simp only [sectors_cons, sectors_nil]
    omega
  · simp only [List.mem_singleton, forall_eq, h.first, Nat.sub_self, Nat.mul_zero, Nat.add_zero]
    exact ⟨h.position, h.byteCount⟩
  · intro before r after hsplit _
    obtain rfl : before = [] := List.eq_nil_of_length_eq_zero (by have := congrArg List.length hsplit; simp at this; omega)
    cases hsplit
    exact ⟨rfl, rfl⟩
  · simp [successful, hstatus, hat]

/-- A turn whose command is carried out, before the rest of the request. -/
theorem Turn.then (h : Turn block nblks position c) (hpos : 0 < nblks) {replies : List IOReturn} {o : Outcome}
    (hrest : Carried (block + c.address.count) (nblks - c.address.count) (position + 512 * c.address.count) replies refuses o) :
    Carried block nblks position (ioReturnSuccess :: replies) refuses { o with commands := c :: o.commands } := by
  have hcount := h.count
  have hinside := hrest.inside
  refine ⟨by simp [hrest.answered], ?_, ?_, ?_, ?_, ?_, ?_, ?_, ?_, ?_⟩
  · intro before c' after hsplit
    cases before with
    | nil =>
      cases hsplit
      simpa using h.first
    | cons b before =>
      obtain ⟨rfl, hafter⟩ : c = b ∧ o.commands = before ++ c' :: after := List.cons.inj hsplit
      rw [hrest.begins before c' after hafter, sectors_cons, Nat.add_assoc]
  · exact List.forall_mem_cons.mpr ⟨h.readable, hrest.readable⟩
  · intro c' hc'
    rcases List.mem_cons.mp hc' with rfl | hc'
    · omega
    · exact hrest.size c' hc'
  · simp only [sectors_cons]
    omega
  · intro c' hc'
    rcases List.mem_cons.mp hc' with rfl | hc'
    · simpa [h.first] using ⟨h.position, h.byteCount⟩
    · obtain ⟨before, after, hsplit⟩ := List.append_of_mem hc'
      have hbegins := hrest.begins before c' after hsplit
      obtain ⟨hposition, hbytes⟩ := hrest.bytes c' hc'
      exact ⟨by omega, hbytes⟩
  · intro before r after hsplit hr
    cases before with
    | nil =>
      cases hsplit
      exact absurd rfl hr
    | cons b before => exact hrest.stops before r after (List.cons.inj hsplit).2 hr
  · intro hs
    have hcomplete := hrest.complete hs
    simp only [sectors_cons]
    omega
  · intro hs
    refine (hrest.failed hs).imp (fun hlast => ?_) fun hrefused => ?_
    · rw [List.getLast?_cons, hlast]
      rfl
    · rwa [sectors_cons, ← Nat.add_assoc]
  · have hactual := hrest.actual
    simp only [successful, List.zip_cons_cons, List.filter_cons_of_pos, decide_true, List.map_cons, sectors_cons] at hactual ⊢
    omega

end

section

variable {σ : Type} {p : Provider σ} {d : Drive} {write : Bool}

variable {hasExtendedLBA : Bool} {currentBlock : UInt64} {chunkBlocks : UInt16}

theorem prepared_of_addressFor {s s₁ s₂ : σ} {c : Command} (halloc : p.allocCommand s = (some hasExtendedLBA, s₁))
    (haddr : addressFor p d hasExtendedLBA currentBlock chunkBlocks s₁ = (.ok c.address, s₂)) : p.prepared c s = s₂ := by
  unfold Provider.prepared
  rw [halloc]
  rcases addressFor_cases haddr with ⟨-, rfl, r, -, hca⟩ | ⟨-, -, rfl, hca⟩ <;> rw [hca]

theorem opcodeFor_extended (d : Drive) (write extended : Bool) : (opcodeFor d write extended).extended = extended := by
  unfold opcodeFor
  split <;> rfl

theorem readable_of_addressFor {s s' : σ} {c : Command} (hop : c.opcode = opcodeFor d write d.supports48Bit)
    (haddr : addressFor p d hasExtendedLBA currentBlock chunkBlocks s = (.ok c.address, s')) : c.Readable := by
  have hextended : c.opcode.extended = d.supports48Bit := hop ▸ opcodeFor_extended d write _
  unfold Command.Readable
  rcases addressFor_cases haddr with ⟨h48, -, r, -, hca⟩ | ⟨h48, hlow, -, hca⟩
  · rw [hca]
    exact hextended.trans h48
  · rw [hca]
    refine ⟨hextended.trans h48, ?_⟩
    rw [UInt64.toNat_toUInt32]
    omega

theorem setLBA48_error {lba : UInt64} {unit : UInt8} {sectorCount : UInt16}
    (h : setLBA48 hasExtendedLBA lba unit sectorCount = .error status) :
    status = ioReturnBadArgument ∧ (2 ^ 48 ≤ lba.toNat ∨ 1 < unit) ∨ status = ioReturnUnsupported ∧ hasExtendedLBA = false := by
  unfold setLBA48 at h
  split at h
  · rename_i hbad
    cases h
    refine .inl ⟨rfl, hbad.imp_left fun hhigh => ?_⟩
    rwa [Ne, high_bits_zero_iff, Nat.not_lt] at hhigh
  · split at h
    · rename_i hnone
      cases h
      exact .inr ⟨rfl, hnone⟩
    · cases h

theorem addressFor_error {s s₁ s' : σ} (halloc : p.allocCommand s = (some hasExtendedLBA, s₁))
    (h : addressFor p d hasExtendedLBA currentBlock chunkBlocks s₁ = (.error status, s')) :
    status ≠ ioReturnSuccess ∧ p.Refuses d s currentBlock.toNat status := by
  rw [Provider.Refuses, halloc]
  simp only
  unfold addressFor at h
  split at h
  · rename_i h48
    cases hset : setLBA48 hasExtendedLBA currentBlock p.unitID chunkBlocks with
    | error e =>
      rw [hset] at h
      cases h
      have hreason := setLBA48_error hset
      refine ⟨?_, by rwa [if_pos h48]⟩
      rcases hreason with ⟨rfl, -⟩ | ⟨rfl, -⟩ <;> decide
    | ok r =>
      rw [hset] at h
      cases h
  · rename_i h48
    rw [if_neg h48]
    split at h
    · rename_i hhigh
      cases h
      exact ⟨by decide, .inl ⟨rfl, UInt64.lt_iff_toNat_lt.mp hhigh⟩⟩
    · have hfst := congrArg Prod.fst h
      simp only at hfst
      split at hfst
      · rename_i hfailed
        cases hfst
        exact ⟨hfailed, .inr (by simp)⟩
      · cases hfst

theorem toNat_chunkBytes (remaining : UInt64) :
    ((chunkOf remaining).toUInt64 * blockSize).toNat = 512 * min 256 remaining.toNat := by
  rw [UInt64.toNat_mul, UInt16.toNat_toUInt64, toNat_chunkOf, show blockSize.toNat = 512 from rfl]
  omega

/-- No more bytes have been transferred than there are sectors below the next one, and those have
    addresses: no count comes around. -/
theorem turn_transferred (hbelow : transferred.toNat ≤ 512 * currentBlock.toNat)
    (h : currentBlock.toNat ≤ d.limit) (remaining : UInt64) :
    (transferred + (chunkOf remaining).toUInt64 * blockSize).toNat = transferred.toNat + 512 * min 256 remaining.toNat := by
  have hlimit := d.limit_lt
  rw [UInt64.toNat_add, toNat_chunkBytes]
  omega

/-- The loop, by induction on its turns: what is left of the request is carried out from where the
    turns before have got. -/
theorem sectorLoop_carried : ∀ {fuel : Nat} {remaining currentBlock transferred : UInt64} {s : σ} {o : Outcome},
    sectorLoop p d write fuel remaining currentBlock transferred s = some o → transferred.toNat ≤ 512 * currentBlock.toNat →
    Carried currentBlock.toNat remaining.toNat transferred.toNat (p.replies o.commands s) (p.Refuses d (p.after o.commands s)) o := by
  intro fuel
  induction fuel with
  | zero => intro remaining currentBlock transferred s o h; cases h
  | succ fuel ih =>
    intro remaining currentBlock transferred s o h hbelow
    rw [sectorLoop] at h
    split at h
    · rename_i h0
      cases h
      exact .none_issued rfl (fun _ => congrArg UInt64.toNat h0) fun hs => absurd rfl hs
    · rename_i hne
      have hpos : 0 < remaining.toNat := Nat.pos_of_ne_zero fun h0 => hne (UInt64.toNat_inj.mp h0)
      simp only at h
      split at h
      · rename_i s₁ halloc
        cases h
        exact .none_issued rfl (fun h0 => absurd h0 (by decide)) fun _ => by simp [Provider.after, Provider.Refuses, halloc]
      · rename_i hasExtendedLBA s₁ halloc
        split at h
        · rename_i status s₂ haddr
          cases h
          obtain ⟨hfailed, hrefused⟩ := addressFor_error halloc haddr
          exact .none_issued rfl (fun h0 => absurd h0 hfailed) fun _ => hrefused
        · rename_i a s₂ haddr
          generalize hc : (⟨⟨write, d.useDMA, !d.useInterrupts, d.supports48Bit⟩, p.unitID, opcodeFor d write d.supports48Bit, a,
            transferred, (chunkOf remaining).toUInt64 * blockSize⟩ : Command) = c at h
          have hca : c.address = a := hc ▸ rfl
          have hchunk : Chunk d currentBlock.toNat remaining.toNat 0 c := .of_address hne (hca.symm ▸ haddr)
          have hcount : c.address.count = min 256 remaining.toNat := hchunk.count
          have hturn : Turn currentBlock.toNat remaining.toNat transferred.toNat c :=
            ⟨readable_of_addressFor (by rw [← hc]) (hca.symm ▸ haddr), hchunk.first, hcount, by rw [← hc], by rw [hcount, ← toNat_chunkBytes, ← hc]⟩
          have hprepared : p.prepared c s = s₂ := prepared_of_addressFor halloc (hca.symm ▸ haddr)
          have hlimit : currentBlock.toNat ≤ d.limit := hchunk.nameable
          split at h
          · rename_i hfailed
            cases h
            rw [Provider.replies, hprepared]
            exact hturn.failed hpos hfailed rfl
          · rename_i hdone
            obtain ⟨o', ho', rfl⟩ := Option.map_eq_some_iff.mp h
            have htransferred := turn_transferred hbelow hlimit remaining
            have hcurrent := turn_currentBlock hlimit remaining
            have hrest := ih ho' (by omega)
            rw [htransferred, hcurrent, turn_remaining, ← hcount] at hrest
            rw [Provider.replies, Provider.after, hprepared, not_not.mp hdone]
            exact hturn.then hpos hrest

end

/-- Whatever the device answers, a request is carried out from its first sector on and from the
    start of the buffer. -/
theorem executeSectors_carried {σ : Type} (p : Provider σ) (d : Drive) (write : Bool) (block nblks : UInt64) (s : σ) :
    ∃ o, executeSectors p d write block nblks s = some o ∧
      Carried block.toNat nblks.toNat 0 (p.replies o.commands s) (p.Refuses d (p.after o.commands s)) o := by
  obtain ⟨o, ho⟩ : ∃ o, executeSectors p d write block nblks s = some o := sectorLoop_isSome (Nat.lt_succ_self _)
  exact ⟨o, ho, sectorLoop_carried ho (Nat.zero_le _)⟩

end Panthera.Storage
