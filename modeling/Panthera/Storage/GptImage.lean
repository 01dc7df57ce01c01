/-
  Panthera.Storage.GptImage — the disk image of one ZFS partition
  (`create_zfs_gpt_image.rb`: `parse_size`, `uuid_to_gpt_bytes`, `utf16le_label`,
  the layout, `gpt_header` and the writing of the image).

  The script computes a layout in sectors, assembles the entry array and the two
  headers as byte strings and writes five pieces into a file of zeros. Text is a list of
  characters, a byte string a list of bytes; `crc` stands for `Zlib.crc32`. Ruby's
  integers do not wrap, so the layout is in natural numbers; the guards keep every
  subtraction from going below zero.

  `image_wellFormed` reads the result back: what the fields of the two headers and of the
  entry array say, at the offsets of the GPT format, about the regions of the image.
-/

import Mathlib.Data.List.GetD
import Panthera.Lib.Ranges
import Panthera.Lib.Wire

namespace Panthera.Storage.Gpt

open Lib Lib.Bytes Lib.Ranges Lib.Wire

/-! ## Byte strings -/

/-- `Array#pack` for the little-endian directives: values past the last directive are
    not packed. -/
def pack (widths values : List Nat) : List UInt8 := (widths.zip values).flatMap fun p => leBytes p.1 p.2

/-- `bytes[start, len] = new`. -/
def splice (bytes : List UInt8) (start len : Nat) (new : List UInt8) : List UInt8 :=
  bytes.take start ++ new ++ bytes.drop (start + len)

/-! ## The arguments -/

def zfsGuid : List Char := "6A898CC3-1DD2-11B2-99A6-080020736631".toList

structure Options where
  image : Option (List Char)
  size : Option (List Char)
  label : List Char := "PantheraZFS".toList
  type : List Char := zfsGuid

inductive Failure where
  /-- `options.fetch` of an option that was not given. -/
  | keyError
  | invalidSize (value : List Char)
  | notSectorAligned
  | tooSmallForGpt
  | tooSmallForPartition
  | exceedsUsableRange
  | invalidUuid (value : List Char)
  /-- `truncate` of a size that is no `off_t`. -/
  | rangeError
  deriving DecidableEq, Repr

def scaleOf : List Char → Option Nat
  | [] => some 1
  | ['k'] | ['K'] => some 1024
  | ['m'] | ['M'] => some (1024 * 1024)
  | ['g'] | ['G'] => some (1024 * 1024 * 1024)
  | _ => none

def isDigit (c : Char) : Bool := '0' ≤ c && c ≤ '9'

def decimal (digits : List Char) : Nat := digits.foldl (fun n c => n * 10 + (c.toNat - '0'.toNat)) 0

def parseSize (value : List Char) : Except Failure Nat :=
  let digits := value.takeWhile isDigit
  match scaleOf (value.dropWhile isDigit) with
  | some scale => if digits = [] then .error (.invalidSize value) else .ok (decimal digits * scale)
  | none => .error (.invalidSize value)

/-! ## UUIDs and labels -/

def hexDigit (c : Char) : Option Nat :=
  if '0' ≤ c ∧ c ≤ '9' then some (c.toNat - '0'.toNat)
  else if 'a' ≤ c ∧ c ≤ 'f' then some (c.toNat - 'a'.toNat + 10)
  else if 'A' ≤ c ∧ c ≤ 'F' then some (c.toNat - 'A'.toNat + 10)
  else none

/-- `[0-9a-fA-F]{n}` at the front of the text. -/
def hexRun : Nat → List Char → Option (List Nat × List Char)
  | 0, text => some ([], text)
  | _ + 1, [] => none
  | n + 1, c :: text => do
    let d ← hexDigit c
    let r ← hexRun n text
    some (d :: r.1, r.2)

def dash : List Char → Option (List Char)
  | '-' :: text => some text
  | _ => none

def hexValue (digits : List Nat) : Nat := digits.foldl (fun n d => n * 16 + d) 0

/-- `pack("H*")`: the high nibble first. -/
def packHex : List Nat → List UInt8
  | h :: l :: digits => UInt8.ofNat (16 * h + l) :: packHex digits
  | _ => []

def uuidFields (uuid : List Char) : Option (List UInt8) := do
  let a ← hexRun 8 uuid
  let b ← dash a.2 >>= hexRun 4
  let c ← dash b.2 >>= hexRun 4
  let d ← dash c.2 >>= hexRun 4
  let e ← dash d.2 >>= hexRun 12
  if e.2 = [] then some (pack [4, 2, 2] [hexValue a.1, hexValue b.1, hexValue c.1] ++ packHex (d.1 ++ e.1)) else none

def uuidToGptBytes (uuid : List Char) : Except Failure (List UInt8) :=
  match uuidFields uuid with
  | some bytes => .ok bytes
  | none => .error (.invalidUuid uuid)

/-- The code units of a character in UTF-16. -/
def utf16Units (c : Char) : List Nat :=
  if c.toNat < 0x10000 then [c.toNat] else [0xD800 + (c.toNat - 0x10000) / 0x400, 0xDC00 + (c.toNat - 0x10000) % 0x400]

def utf16leLabel (label : List Char) : List UInt8 :=
  let encoded := ((label.flatMap utf16Units).flatMap (leBytes 2)).take 72
  encoded ++ zeros (72 - encoded.length)

/-! ## The layout -/

def sectorSize : Nat := 512
def gptEntryCount : Nat := 128
def gptEntrySize : Nat := 128
def gptEntrySectors : Nat := gptEntryCount * gptEntrySize / sectorSize

structure Layout where
  lastLba : Nat
  firstUsable : Nat
  lastUsable : Nat
  partitionFirst : Nat
  partitionLast : Nat
  deriving DecidableEq, Repr

def minimumSectors : Nat := 1 + 1 + gptEntrySectors + 8 + gptEntrySectors + 1

def layout (sizeBytes : Nat) : Except Failure Layout :=
  if sizeBytes % sectorSize ≠ 0 then .error .notSectorAligned
  else
    let totalSectors := sizeBytes / sectorSize
    if totalSectors ≤ minimumSectors then .error .tooSmallForGpt
    else
      let lastLba := totalSectors - 1
      let lastUsable := lastLba - gptEntrySectors - 1
      let partitionFirst := 40
      let partitionLast := lastLba - 40
      if partitionLast ≤ partitionFirst then .error .tooSmallForPartition
      else if lastUsable < partitionLast then .error .exceedsUsableRange
      else .ok ⟨lastLba, 34, lastUsable, partitionFirst, partitionLast⟩

/-! ## The pieces -/

def gptEntries (typeGuid partitionGuid : List UInt8) (l : Layout) (label : List Char) : List UInt8 :=
  let entries := typeGuid ++ partitionGuid ++ pack [8, 8, 8] [l.partitionFirst, l.partitionLast, 0] ++ utf16leLabel label
  let entries := entries ++ zeros (gptEntrySize - entries.length)
  entries ++ zeros (gptEntryCount * gptEntrySize - entries.length)

/-- `"EFI PART"`. -/
def efiPart : List UInt8 := [69, 70, 73, 32, 80, 65, 82, 84]

def gptHeader (crc : List UInt8 → UInt32) (currentLba backupLba : Nat) (l : Layout) (diskGuid : List UInt8)
    (entriesLba : Nat) (entriesCrc : UInt32) : List UInt8 :=
  let header := efiPart ++ pack [4, 4, 4, 4] [0x00010000, 92, 0, 0] ++
    pack [8, 8, 8, 8] [currentLba, backupLba, l.firstUsable, l.lastUsable] ++ diskGuid ++
    pack [8, 4, 4, 4] [entriesLba, gptEntryCount, gptEntrySize, entriesCrc.toNat]
  let header := header ++ zeros (sectorSize - header.length)
  let crcRegion := splice (header.take 92) 16 4 (pack [4] [0])
  splice header 16 4 (pack [4] [(crc crcRegion).toNat])

/-- The directives take nine of the ten values, as 15 bytes: `0xff` of the last CHS
    address becomes the first sector, `1` the sector count, and the sector count of the
    disk is not packed. The second splice makes the sector whole again. -/
def protectiveMbr (totalSectors : Nat) : List UInt8 :=
  let mbr := zeros sectorSize
  let mbr := splice mbr 446 16 (pack [1, 1, 1, 1, 1, 1, 1, 4, 4]
    [0x00, 0xfe, 0xff, 0xff, 0xee, 0xfe, 0xff, 0xff, 1, min (totalSectors - 1) 0xffffffff])
  splice mbr 510 2 (pack [2] [0xaa55])

/-! ## The image -/

structure DiskImage where
  size : Nat
  bytes : Mem

/-- `file.truncate` of the new file. -/
def truncate (size : Nat) : Except Failure DiskImage :=
  if 2 ^ 63 ≤ size then .error .rangeError else .ok ⟨size, fun _ => 0⟩

/-- `file.seek` and `file.write`: a write past the end extends the file. -/
def DiskImage.write (img : DiskImage) (w : Nat × List UInt8) : DiskImage :=
  ⟨max img.size (w.1 + w.2.length), put img.bytes w.1 w.2⟩

def pieces (crc : List UInt8 → UInt32) (l : Layout) (diskGuid entries : List UInt8) : List (Nat × List UInt8) :=
  let entriesCrc := crc entries
  [(0, protectiveMbr (l.lastLba + 1)),
   (sectorSize, gptHeader crc 1 l.lastLba l diskGuid 2 entriesCrc),
   (2 * sectorSize, entries),
   ((l.lastLba - gptEntrySectors) * sectorSize, entries),
   (l.lastLba * sectorSize, gptHeader crc l.lastLba 1 l diskGuid (l.lastLba - gptEntrySectors) entriesCrc)]

/-- What the script leaves and prints. -/
structure Created where
  image : DiskImage
  sizeBytes : Nat
  partitionFirst : Nat
  partitionLast : Nat

def fetch {α : Type} : Option α → Except Failure α
  | some a => .ok a
  | none => .error .keyError

/-- `diskUuid` and `partitionUuid` are what `SecureRandom.uuid` returns. -/
def create (crc : List UInt8 → UInt32) (o : Options) (diskUuid partitionUuid : List Char) : Except Failure Created := do
  let _ ← fetch o.image
  let value ← fetch o.size
  let sizeBytes ← parseSize value
  let l ← layout sizeBytes
  let diskGuid ← uuidToGptBytes diskUuid
  let partitionGuid ← uuidToGptBytes partitionUuid
  let typeGuid ← uuidToGptBytes o.type
  let entries := gptEntries typeGuid partitionGuid l o.label
  let img ← truncate sizeBytes
  return ⟨(pieces crc l diskGuid entries).foldl DiskImage.write img, sizeBytes, l.partitionFirst, l.partitionLast⟩

/-! ## Reading the image -/

structure HeaderFields where
  signature : List UInt8
  revision : UInt32
  headerSize : UInt32
  headerCrc : UInt32
  reserved : UInt32
  currentLba : UInt64
  backupLba : UInt64
  firstUsable : UInt64
  lastUsable : UInt64
  diskGuid : List UInt8
  entriesLba : UInt64
  entryCount : UInt32
  entrySize : UInt32
  entriesCrc : UInt32
  deriving DecidableEq, Repr

def headerAt (m : Mem) (a : Nat) : HeaderFields where
  signature := bytesAt m a 8
  revision := read32 m (a + 8)
  headerSize := read32 m (a + 12)
  headerCrc := read32 m (a + 16)
  reserved := read32 m (a + 20)
  currentLba := read64 m (a + 24)
  backupLba := read64 m (a + 32)
  firstUsable := read64 m (a + 40)
  lastUsable := read64 m (a + 48)
  diskGuid := bytesAt m (a + 56) 16
  entriesLba := read64 m (a + 72)
  entryCount := read32 m (a + 80)
  entrySize := read32 m (a + 84)
  entriesCrc := read32 m (a + 88)

/-- A range of sectors, in bytes. -/
def sectors (first last : Nat) : Range := ⟨first * sectorSize, (last + 1 - first) * sectorSize⟩

def HeaderFields.entries (h : HeaderFields) : Range :=
  ⟨h.entriesLba.toNat * sectorSize, h.entryCount.toNat * h.entrySize.toNat⟩

def HeaderFields.usable (h : HeaderFields) : Range := sectors h.firstUsable.toNat h.lastUsable.toNat

/-- What the two copies of a header have in common: all but where the copy, the other
    one and its entry array are, and its checksum. -/
def HeaderFields.shared (h : HeaderFields) : HeaderFields :=
  { h with currentLba := 0, backupLba := 0, entriesLba := 0, headerCrc := 0 }

/-- The 92 bytes a header's checksum covers, the checksum itself as zero. -/
def checkedBytes (m : Mem) (a : Nat) : List UInt8 := splice (bytesAt m a 92) 16 4 [0, 0, 0, 0]

/-- The number that digits spell in base `b`, the highest first. -/
def numeral (b : Nat) (digits : List Char) : Nat := Nat.ofDigits b (digits.map fun c => (hexDigit c).getD 0).reverse

/-- A decimal number and a unit, together `n` bytes. -/
def Asks (value : List Char) (n : Nat) : Prop :=
  ∃ digits unit scale, value = digits ++ unit ∧ digits ≠ [] ∧ (∀ c ∈ digits, c.isDigit) ∧ n = numeral 10 digits * scale ∧
    (unit, scale) ∈ [([], 1), (['k'], 2 ^ 10), (['K'], 2 ^ 10), (['m'], 2 ^ 20), (['M'], 2 ^ 20), (['g'], 2 ^ 30), (['G'], 2 ^ 30)]

/-- The GUID that the text spells: three numbers with the lowest byte first, and eight bytes. -/
def GuidAt (m : Mem) (a : Nat) (uuid : List Char) : Prop :=
  ∃ f₁ f₂ f₃ f₄ f₅ : List Char, uuid = f₁ ++ '-' :: (f₂ ++ '-' :: (f₃ ++ '-' :: (f₄ ++ '-' :: f₅))) ∧
    [f₁, f₂, f₃, f₄, f₅].map List.length = [8, 4, 4, 4, 12] ∧
    readLE 4 m a = numeral 16 f₁ ∧ readLE 2 m (a + 4) = numeral 16 f₂ ∧ readLE 2 m (a + 6) = numeral 16 f₃ ∧
    ∀ i < 8, (m (a + 8 + i)).toNat = numeral 16 (((f₄ ++ f₅).drop (2 * i)).take 2)

/-- The entry of a partition; of the label there are the first 36 code units, and zeros behind it. -/
structure EntryAt (m : Mem) (a : Nat) (type uuid : List Char) (first last : Nat) (label : List Char) : Prop where
  type : GuidAt m a type
  guid : GuidAt m (a + 16) uuid
  first : (read64 m (a + 32)).toNat = first
  last : (read64 m (a + 40)).toNat = last
  attributes : read64 m (a + 48) = 0
  label : ∀ k < 36, read16 m (a + 56 + 2 * k) = UInt16.ofNat ((label.flatMap utf16Units).getD k 0)

/-- The image of one partition: what the two headers and the entry array say, read at
    the places the format gives them, fits the image and each other. -/
structure WellFormed (crc : List UInt8 → UInt32) (o : Options) (partitionUuid : List Char) (c : Created)
    (primary backup : HeaderFields) : Prop where
  size_eq : c.image.size = c.sizeBytes
  /-- The primary header is in sector 1, the backup header in the last sector. -/
  backup_last : (primary.backupLba.toNat + 1) * sectorSize = c.sizeBytes
  pointers : primary.currentLba = 1 ∧ backup.currentLba = primary.backupLba ∧ backup.backupLba = 1 ∧ primary.entriesLba = 2
  disjoint : [sectors 1 1, primary.entries, sectors c.partitionFirst c.partitionLast, backup.entries,
    sectors primary.backupLba.toNat primary.backupLba.toNat].Pairwise Range.Disjoint
  inside : ∀ r ∈ [sectors 1 1, primary.entries, sectors c.partitionFirst c.partitionLast, backup.entries,
    sectors primary.backupLba.toNat primary.backupLba.toNat], r.Inside ⟨0, c.sizeBytes⟩
  partition_usable : primary.firstUsable.toNat ≤ c.partitionFirst ∧ c.partitionFirst ≤ c.partitionLast ∧
    c.partitionLast ≤ primary.lastUsable.toNat
  usable_clear : primary.usable.Disjoint primary.entries ∧ primary.usable.Disjoint backup.entries
  agree : backup.shared = primary.shared
  headerCrc : primary.headerCrc = crc (checkedBytes c.image.bytes sectorSize) ∧
    backup.headerCrc = crc (checkedBytes c.image.bytes (primary.backupLba.toNat * sectorSize))
  entriesCrc : primary.entriesCrc = crc (bytesAt c.image.bytes primary.entries.start primary.entries.size) ∧
    backup.entriesCrc = crc (bytesAt c.image.bytes backup.entries.start backup.entries.size)
  /-- In either array, entry 0 is the partition's and the other entries are zero. -/
  entry : ∀ array ∈ [primary.entries, backup.entries],
    EntryAt c.image.bytes array.start o.type partitionUuid c.partitionFirst c.partitionLast o.label ∧
    c.partitionFirst ≠ 0 ∧ ∀ x, gptEntrySize ≤ x → x < array.size → c.image.bytes (array.start + x) = 0

/-! ## The pieces, field by field -/

theorem splice_append {pre field rest new : List UInt8} {start len : Nat} (hstart : pre.length = start)
    (hlen : field.length = len) : splice (pre ++ (field ++ rest)) start len new = pre ++ (new ++ rest) := by
  subst hstart hlen
  simp [splice, List.drop_append]

/-- Digits that are taken up from left to right. -/
theorem foldl_digits (b : Nat) (digits : List Nat) : digits.foldl (fun n d => n * b + d) 0 = Nat.ofDigits b digits.reverse := by
  rw [Nat.ofDigits_eq_foldr, List.foldr_reverse]
  exact congrArg (fun f => digits.foldl f 0) (funext fun n => funext fun d => by simp [Nat.mul_comm, Nat.add_comm])

theorem hexDigit_of_isDigit {c : Char} (h : isDigit c = true) : hexDigit c = some (c.toNat - '0'.toNat) := by
  rw [hexDigit, if_pos (by simpa [isDigit] using h)]

theorem hexDigit_lt {c : Char} {d : Nat} (h : hexDigit c = some d) : d < 16 := by
  have hle : ∀ {a b : Char}, a ≤ b → a.toNat ≤ b.toNat := fun h => h
  unfold hexDigit at h
  split_ifs at h with h₁ h₂ h₃
  · have := hle h₁.2
    cases h
    exact Nat.lt_of_le_of_lt (Nat.sub_le_sub_right this _) (by decide)
  · have := hle h₂.2
    cases h
    exact Nat.lt_of_le_of_lt (Nat.add_le_add_right (Nat.sub_le_sub_right this _) _) (by decide)
  · have := hle h₃.2
    cases h
    exact Nat.lt_of_le_of_lt (Nat.add_le_add_right (Nat.sub_le_sub_right this _) _) (by decide)

theorem parseSize_asks {value : List Char} {n : Nat} (h : parseSize value = .ok n) : Asks value n := by
  unfold parseSize at h
  simp only at h
  split at h
  · rename_i scale hscale
    split_ifs at h with hdigits
    cases h
    have hall : ∀ c ∈ value.takeWhile isDigit, isDigit c = true := fun c hc => List.all_eq_true.mp List.all_takeWhile c hc
    refine ⟨value.takeWhile isDigit, value.dropWhile isDigit, scale, List.takeWhile_append_dropWhile.symm, hdigits, hall, ?_, ?_⟩
    · rw [numeral, ← foldl_digits, decimal, ← List.foldl_map]
      congr 2
      exact List.map_congr_left fun c hc => by rw [hexDigit_of_isDigit (hall c hc)]; rfl
    · revert hscale
      generalize value.dropWhile isDigit = unit
      intro hscale
      unfold scaleOf at hscale
      split at hscale <;> cases hscale <;> decide
  · cases h

/-- So many hex digits at the front of a text. -/
structure HexField (n : Nat) (text field : List Char) (r : List Nat × List Char) : Prop where
  split : text = field ++ r.2
  length : field.length = n
  digits : r.1 = field.map fun c => (hexDigit c).getD 0
  lt : ∀ d ∈ r.1, d < 16

theorem hexRun_field : ∀ {n : Nat} {text : List Char} {r : List Nat × List Char}, hexRun n text = some r →
    ∃ field, HexField n text field r := by
  intro n
  induction n with
  | zero => intro text r h; cases h; exact ⟨[], rfl, rfl, rfl, by simp⟩
  | succ n ih =>
    intro text r h
    cases text with
    | nil => cases h
    | cons c text =>
      simp only [hexRun, Option.bind_eq_bind, Option.bind_eq_some_iff] at h
      obtain ⟨d, hd, r', hr', hr⟩ := h
      cases hr
      obtain ⟨field, hsplit, hlength, hdigits, hlt⟩ := ih hr'
      refine ⟨c :: field, by rw [hsplit]; rfl, by rw [List.length_cons, hlength], by simp [hd, hdigits], ?_⟩
      exact List.forall_mem_cons.mpr ⟨hexDigit_lt hd, hlt⟩

theorem dash_eq {text rest : List Char} (h : dash text = some rest) : text = '-' :: rest := by
  unfold dash at h
  split at h <;> cases h
  rfl

section Guid

variable {n k : Nat} {text field : List Char} {r : List Nat × List Char} {m : Mem} {a : Nat}

/-- A field that is packed as a number. -/
theorem HexField.number (hf : HexField (2 * k) text field r) (h : Holds m a (leBytes k (hexValue r.1))) :
    readLE k m a = numeral 16 field := by
  have hlt : Nat.ofDigits 16 r.1.reverse < 16 ^ (2 * k) := by
    have hbound := Nat.ofDigits_lt_base_pow_length (b := 16) (l := r.1.reverse) (by decide) fun d hd => hf.lt d (List.mem_reverse.mp hd)
    have hlength : r.1.length = 2 * k := by rw [hf.digits, List.length_map, hf.length]
    rwa [List.length_reverse, hlength] at hbound
  rw [h.readLE, hexValue, foldl_digits, Nat.mod_eq_of_lt (by rwa [Nat.pow_mul] at hlt), hf.digits, numeral]

theorem packHex_length : ∀ digits : List Nat, (packHex digits).length = digits.length / 2
  | [] => rfl
  | [_] => by simp [packHex]
  | _ :: _ :: digits => by
    simp only [packHex, List.length_cons, packHex_length digits]
    omega

/-- A byte that two digits are packed into. -/
theorem packHex_getD : ∀ (digits : List Nat) (i : Nat), (∀ d ∈ digits, d < 16) → 2 * i + 1 < digits.length →
    ((packHex digits).getD i 0).toNat = Nat.ofDigits 16 ((digits.drop (2 * i)).take 2).reverse
  | [], _, _, hi => by simp at hi
  | [_], _, _, hi => by simp at hi
  | h :: l :: digits, 0, hlt, _ => by
    have hh := hlt h (by simp)
    have hl := hlt l (by simp)
    simp only [packHex, List.getD_cons_zero, Nat.mul_zero, List.drop_zero, List.take_succ_cons, List.take_zero, List.reverse_cons,
      List.reverse_nil, List.nil_append, List.cons_append, Nat.ofDigits_cons, Nat.ofDigits_nil]
    rw [UInt8.toNat_ofNat']
    omega
  | h :: l :: digits, i + 1, hlt, hi => by
    have hrest := packHex_getD digits i (fun d hd => hlt d (by simp [hd])) (by simp at hi; omega)
    rw [packHex, List.getD_cons_succ, hrest]
    rfl

theorem uuidToGptBytes_spec {uuid : List Char} {bytes : List UInt8} (h : uuidToGptBytes uuid = .ok bytes) :
    bytes.length = 16 ∧ ∀ {m : Mem} {a : Nat}, Holds m a bytes → GuidAt m a uuid := by
  unfold uuidToGptBytes at h
  split at h
  · cases h
    rename_i hf
    simp only [uuidFields, Option.bind_eq_bind, Option.bind_eq_some_iff] at hf
    obtain ⟨r₁, h₁, r₂, ⟨t₂, d₂, h₂⟩, r₃, ⟨t₃, d₃, h₃⟩, r₄, ⟨t₄, d₄, h₄⟩, r₅, ⟨t₅, d₅, h₅⟩, hf⟩ := hf
    split_ifs at hf with hend
    cases hf
    obtain ⟨f₁, h₁⟩ := hexRun_field h₁
    obtain ⟨f₂, h₂⟩ := hexRun_field h₂
    obtain ⟨f₃, h₃⟩ := hexRun_field h₃
    obtain ⟨f₄, h₄⟩ := hexRun_field h₄
    obtain ⟨f₅, h₅⟩ := hexRun_field h₅
    have hdigits : r₄.1 ++ r₅.1 = (f₄ ++ f₅).map fun c => (hexDigit c).getD 0 := by rw [h₄.digits, h₅.digits, List.map_append]
    have hlength : (r₄.1 ++ r₅.1).length = 16 := by rw [hdigits, List.length_map, List.length_append, h₄.length, h₅.length]
    refine ⟨by simp [pack, packHex_length, hlength], fun {m a} hm => ⟨f₁, f₂, f₃, f₄, f₅, ?_, ?_, ?_, ?_, ?_, fun i hi => ?_⟩⟩
    · rw [h₁.split, dash_eq d₂, h₂.split, dash_eq d₃, h₃.split, dash_eq d₄, h₄.split, dash_eq d₅, h₅.split, hend, List.append_nil]
    · simp [h₁.length, h₂.length, h₃.length, h₄.length, h₅.length]
    all_goals
      simp only [pack, List.zip_cons_cons, List.zip_nil_right, List.flatMap_cons, List.flatMap_nil, List.append_nil,
        List.append_assoc] at hm
      have a₀ := At.start (leBytes 4 (hexValue r₁.1) ++ (leBytes 2 (hexValue r₂.1) ++ (leBytes 2 (hexValue r₃.1) ++ packHex (r₄.1 ++ r₅.1))))
    · exact HexField.number (k := 4) h₁ hm.left
    · exact HexField.number (k := 2) h₂ (hm.at a₀.skip)
    · exact HexField.number (k := 2) h₃ (hm.at a₀.skip.skip)
    · have hbyte := hm.last a₀.skip.skip.skip i (by rw [packHex_length, hlength]; exact hi)
      simp only [leBytes_length, Nat.zero_add, Nat.reduceAdd] at hbyte
      have hlt : ∀ d ∈ r₄.1 ++ r₅.1, d < 16 := fun d hd => (List.mem_append.mp hd).elim (h₄.lt d) (h₅.lt d)
      rw [hbyte, packHex_getD _ i hlt (by omega), hdigits, numeral, List.map_take, List.map_drop]
  · cases h

end Guid

/-- Byte `b` of the code unit `k`. -/
theorem flatMap_leBytes_getD {b : Nat} (hb : b < 2) : ∀ (us : List Nat) (k : Nat),
    (us.flatMap (leBytes 2)).getD (2 * k + b) 0 = (leBytes 2 (us.getD k 0)).getD b 0 := by
  intro us
  induction us with
  | nil =>
    intro k
    interval_cases b <;> simp [leBytes]
  | cons u us ih =>
    intro k
    rw [List.flatMap_cons]
    cases k with
    | zero =>
      rw [List.getD_append _ _ _ _ (by simpa using hb), Nat.mul_zero, Nat.zero_add]
      rfl
    | succ k =>
      rw [List.getD_append_right _ _ _ _ (by simp; omega), leBytes_length, show 2 * (k + 1) + b - 2 = 2 * k + b by omega, ih]
      rfl

theorem label_holds {m : Mem} {a : Nat} {label : List Char} (h : Holds m a (utf16leLabel label)) (k : Nat) (hk : k < 36) :
    read16 m (a + 2 * k) = UInt16.ofNat ((label.flatMap utf16Units).getD k 0) := by
  generalize hus : label.flatMap utf16Units = us at *
  have hbyte : ∀ b < 2, m (a + 2 * k + b) = (leBytes 2 (us.getD k 0)).getD b 0 := by
    intro b hb
    rw [← flatMap_leBytes_getD hb us k, Nat.add_assoc, h _ (by simp [utf16leLabel, zeros]; omega), utf16leLabel, hus]
    -- what is cut off comes later, and what is filled in is zero
    simp only [List.getD_eq_getElem?_getD, List.getElem?_append, List.length_take, zeros, List.getElem?_replicate]
    split
    · rw [List.getElem?_take_of_lt (by omega)]
    · rw [List.getElem?_eq_none (l := us.flatMap (leBytes 2)) (by omega)]
      split <;> rfl
  have hword : Holds m (a + 2 * k) (leBytes 2 (us.getD k 0)) := fun b hb => hbyte b (by simpa using hb)
  rw [read16, hword.readLE]
  exact UInt16.toNat_inj.mp (by simp)

theorem utf16leLabel_length (label : List Char) : (utf16leLabel label).length = 72 := by
  simp only [utf16leLabel, List.length_append, zeros, List.length_replicate, List.length_take]
  omega

theorem gptEntries_eq {typeGuid partitionGuid : List UInt8} (ht : typeGuid.length = 16) (hp : partitionGuid.length = 16)
    (l : Layout) (label : List Char) :
    gptEntries typeGuid partitionGuid l label = typeGuid ++ (partitionGuid ++ (leBytes 8 l.partitionFirst ++
      (leBytes 8 l.partitionLast ++ (leBytes 8 0 ++ (utf16leLabel label ++ zeros 16256))))) := by
  have hone : (typeGuid ++ partitionGuid ++ pack [8, 8, 8] [l.partitionFirst, l.partitionLast, 0] ++
      utf16leLabel label).length = 128 := by
    simp [pack, ht, hp, utf16leLabel_length]
  have hfull : zeros (gptEntrySize - 128) = [] := rfl
  have hrest : gptEntryCount * gptEntrySize - 128 = 16256 := rfl
  simp only [gptEntries, hone, hfull, List.append_nil, hrest]
  simp [pack]

/-- The 92 bytes of a header with `check` for its checksum. -/
def headerFields (currentLba backupLba : Nat) (l : Layout) (diskGuid : List UInt8) (entriesLba : Nat)
    (entriesCrc : UInt32) (check : Nat) : List UInt8 :=
  efiPart ++ (leBytes 4 0x00010000 ++ (leBytes 4 92 ++ (leBytes 4 check ++ (leBytes 4 0 ++ (leBytes 8 currentLba ++
    (leBytes 8 backupLba ++ (leBytes 8 l.firstUsable ++ (leBytes 8 l.lastUsable ++ (diskGuid ++ (leBytes 8 entriesLba ++
      (leBytes 4 gptEntryCount ++ (leBytes 4 gptEntrySize ++ leBytes 4 entriesCrc.toNat))))))))))))

theorem headerFields_length {diskGuid : List UInt8} (h : diskGuid.length = 16) (currentLba backupLba : Nat) (l : Layout)
    (entriesLba : Nat) (entriesCrc : UInt32) (check : Nat) :
    (headerFields currentLba backupLba l diskGuid entriesLba entriesCrc check).length = 92 := by
  simp [headerFields, efiPart, h]

theorem splice_check (currentLba backupLba : Nat) (l : Layout) (diskGuid : List UInt8) (entriesLba : Nat)
    (entriesCrc : UInt32) (check new : Nat) (rest : List UInt8) :
    splice (headerFields currentLba backupLba l diskGuid entriesLba entriesCrc check ++ rest) 16 4 (leBytes 4 new) =
      headerFields currentLba backupLba l diskGuid entriesLba entriesCrc new ++ rest := by
  have hsplit : ∀ v, headerFields currentLba backupLba l diskGuid entriesLba entriesCrc v ++ rest =
      (efiPart ++ (leBytes 4 0x00010000 ++ leBytes 4 92)) ++ (leBytes 4 v ++ (leBytes 4 0 ++ (leBytes 8 currentLba ++
        (leBytes 8 backupLba ++ (leBytes 8 l.firstUsable ++ (leBytes 8 l.lastUsable ++ (diskGuid ++ (leBytes 8 entriesLba ++
          (leBytes 4 gptEntryCount ++ (leBytes 4 gptEntrySize ++ (leBytes 4 entriesCrc.toNat ++ rest))))))))))) := by
    intro v
    simp only [headerFields, List.append_assoc]
  rw [hsplit check, hsplit new]
  exact splice_append (by simp [efiPart]) (by simp)

theorem gptHeader_eq (crc : List UInt8 → UInt32) {diskGuid : List UInt8} (h : diskGuid.length = 16)
    (currentLba backupLba : Nat) (l : Layout) (entriesLba : Nat) (entriesCrc : UInt32) :
    gptHeader crc currentLba backupLba l diskGuid entriesLba entriesCrc =
      headerFields currentLba backupLba l diskGuid entriesLba entriesCrc
        (crc (headerFields currentLba backupLba l diskGuid entriesLba entriesCrc 0)).toNat ++ zeros 420 := by
  have hlen := headerFields_length h currentLba backupLba l entriesLba entriesCrc 0
  have hraw : efiPart ++ pack [4, 4, 4, 4] [0x00010000, 92, 0, 0] ++
      pack [8, 8, 8, 8] [currentLba, backupLba, l.firstUsable, l.lastUsable] ++ diskGuid ++
      pack [8, 4, 4, 4] [entriesLba, gptEntryCount, gptEntrySize, entriesCrc.toNat] =
        headerFields currentLba backupLba l diskGuid entriesLba entriesCrc 0 := by
    simp [pack, headerFields]
  have hzero : pack [4] [0] = leBytes 4 0 := by simp [pack]
  have hword : ∀ v, pack [4] [v] = leBytes 4 v := fun v => by simp [pack]
  have hregion := splice_check currentLba backupLba l diskGuid entriesLba entriesCrc 0 0 []
  rw [List.append_nil] at hregion
  simp only [gptHeader, hraw, hlen, hzero, hword, sectorSize]
  rw [List.take_left' hlen, hregion, splice_check]

theorem splice_length (bytes new : List UInt8) (start len : Nat) :
    (splice bytes start len new).length = min start bytes.length + new.length + (bytes.length - (start + len)) := by
  simp [splice]
  omega

theorem protectiveMbr_length (totalSectors : Nat) : (protectiveMbr totalSectors).length = 512 := by
  have hentry : (pack [1, 1, 1, 1, 1, 1, 1, 4, 4]
      [0x00, 0xfe, 0xff, 0xff, 0xee, 0xfe, 0xff, 0xff, 1, min (totalSectors - 1) 0xffffffff]).length = 15 := by
    simp [pack]
  have hmark : (pack [2] [0xaa55]).length = 2 := by simp [pack]
  simp only [protectiveMbr, splice_length, hentry, hmark, zeros, List.length_replicate, sectorSize]
  rfl

/-! ## A header in the image -/

section Header

variable {m : Mem} {a currentLba backupLba entriesLba check : Nat} {l : Layout} {diskGuid : List UInt8}
  {entriesCrc : UInt32} (hguid : diskGuid.length = 16)
  (h : Holds m a (headerFields currentLba backupLba l diskGuid entriesLba entriesCrc check))

include hguid h

/-- A header read back, field by field. -/
theorem headerAt_holds :
    headerAt m a = ⟨efiPart, 0x00010000, 92, UInt32.ofNat check, 0, UInt64.ofNat currentLba, UInt64.ofNat backupLba,
      UInt64.ofNat l.firstUsable, UInt64.ofNat l.lastUsable, diskGuid, UInt64.ofNat entriesLba, 128, 128, entriesCrc⟩ := by
  have a0 := At.start (headerFields currentLba backupLba l diskGuid entriesLba entriesCrc check)
  unfold headerFields at a0 h
  have a1 := a0.skip
  have a2 := a1.skip
  have a3 := a2.skip
  have a4 := a3.skip
  have a5 := a4.skip
  have a6 := a5.skip
  have a7 := a6.skip
  have a8 := a7.skip
  have a9 := a8.skip
  have a10 := a9.skip
  have a11 := a10.skip
  have a12 := a11.skip
  have a13 := a12.skip
  have hefi : efiPart.length = 8 := rfl
  have hsig := h.left.bytesAt
  have hguidAt := (h.at a9).bytesAt
  have h1 := (h.at a1).read32
  have h2 := (h.at a2).read32
  have h3 := (h.at a3).read32
  have h4 := (h.at a4).read32
  have h5 := (h.at a5).read64
  have h6 := (h.at a6).read64
  have h7 := (h.at a7).read64
  have h8 := (h.at a8).read64
  have h10 := (h.at a10).read64
  have h11 := (h.at a11).read32
  have h12 := (h.at a12).read32
  have h13 := (h.last a13).read32
  simp only [leBytes_length, hefi, hguid, Nat.zero_add, Nat.reduceAdd] at hsig hguidAt h1 h2 h3 h4 h5 h6 h7 h8 h10 h11 h12 h13
  simp only [headerAt, hsig, hguidAt, h1, h2, h3, h4, h5, h6, h7, h8, h10, h11, h12, h13, UInt32.ofNat_toNat]
  rfl

theorem checkedBytes_holds : checkedBytes m a = headerFields currentLba backupLba l diskGuid entriesLba entriesCrc 0 := by
  have hbytes := h.bytesAt
  rw [headerFields_length hguid] at hbytes
  have hcheck := splice_check currentLba backupLba l diskGuid entriesLba entriesCrc check 0 []
  rw [List.append_nil, List.append_nil] at hcheck
  rw [checkedBytes, hbytes, ← hcheck]
  rfl

end Header

/-! ## The layout and the writes -/

/-- What the script has checked when it goes on to write. -/
structure Layout.Sound (l : Layout) (sizeBytes : Nat) : Prop where
  size_eq : (l.lastLba + 1) * 512 = sizeBytes
  long : 81 ≤ l.lastLba
  firstUsable : l.firstUsable = 34
  lastUsable : l.lastUsable + 33 = l.lastLba
  partitionFirst : l.partitionFirst = 40
  partitionLast : l.partitionLast + 40 = l.lastLba

theorem layout_sound {sizeBytes : Nat} {l : Layout} (h : layout sizeBytes = .ok l) : l.Sound sizeBytes := by
  have hsectors : gptEntrySectors = 32 := rfl
  have hmin : minimumSectors = 75 := rfl
  simp only [layout, sectorSize, hsectors, hmin] at h
  split_ifs at h with haligned hgpt hpart husable
  cases h
  exact ⟨by simp only; omega, by simp only; omega, rfl, by simp only; omega, rfl, by simp only; omega⟩

theorem foldl_write_bytes (ws : List (Nat × List UInt8)) : ∀ img : DiskImage,
    (ws.foldl DiskImage.write img).bytes = ws.foldl (fun m w => put m w.1 w.2) img.bytes := by
  induction ws with
  | nil => intro img; rfl
  | cons w ws ih => intro img; exact ih (img.write w)

theorem foldl_write_size {ws : List (Nat × List UInt8)} {n : Nat} (h : ∀ w ∈ ws, w.1 + w.2.length ≤ n) :
    ∀ img : DiskImage, img.size = n → (ws.foldl DiskImage.write img).size = n := by
  induction ws with
  | nil => intro img himg; exact himg
  | cons w ws ih =>
    intro img himg
    refine ih (fun v hv => h v (List.mem_cons_of_mem _ hv)) (img.write w) ?_
    rw [DiskImage.write, himg]
    exact max_eq_left (h w List.mem_cons_self)

section Pieces

variable (crc : List UInt8 → UInt32) {l : Layout} {sizeBytes : Nat} {diskGuid entries : List UInt8}

theorem gptHeader_length (hguid : diskGuid.length = 16) (currentLba backupLba entriesLba : Nat) (entriesCrc : UInt32) :
    (gptHeader crc currentLba backupLba l diskGuid entriesLba entriesCrc).length = 512 := by
  rw [gptHeader_eq crc hguid, List.length_append, headerFields_length hguid, zeros, List.length_replicate]

variable (hl : l.Sound sizeBytes) (hguid : diskGuid.length = 16) (hentries : entries.length = 16384)

include hl hguid hentries

theorem pieces_within : ∀ w ∈ pieces crc l diskGuid entries, w.1 + w.2.length ≤ sizeBytes := by
  have hsize := hl.size_eq
  have hlong := hl.long
  have hsectors : gptEntrySectors = 32 := rfl
  simp only [pieces, List.forall_mem_cons, protectiveMbr_length, gptHeader_length crc hguid, hentries, sectorSize, hsectors]
  refine ⟨by omega, by omega, by omega, by omega, by omega, fun _ h => by cases h⟩

theorem pieces_disjoint :
    (pieces crc l diskGuid entries).Pairwise fun v w => Range.Disjoint ⟨v.1, v.2.length⟩ ⟨w.1, w.2.length⟩ := by
  have hlong := hl.long
  have hsectors : gptEntrySectors = 32 := rfl
  simp only [pieces, List.pairwise_cons, List.forall_mem_cons, protectiveMbr_length, gptHeader_length crc hguid, hentries,
    sectorSize, hsectors, Range.disjoint_iff]
  refine ⟨⟨by omega, by omega, by omega, by omega, fun _ h => by cases h⟩, ⟨by omega, by omega, by omega, fun _ h => by cases h⟩,
    ⟨by omega, by omega, fun _ h => by cases h⟩, ⟨by omega, fun _ h => by cases h⟩, (fun _ h => by cases h), List.Pairwise.nil⟩

theorem pieces_hold (img : DiskImage) : ∀ w ∈ pieces crc l diskGuid entries,
      Holds ((pieces crc l diskGuid entries).foldl DiskImage.write img).bytes w.1 w.2 := by
  rw [foldl_write_bytes]
  exact (foldl_put (pieces_disjoint crc hl hguid hentries)).2

end Pieces

/-! ## The finished image -/

section Image

variable {crc : List UInt8 → UInt32} {l : Layout} {sizeBytes : Nat} {diskGuid typeGuid partitionGuid : List UInt8}
  {label : List Char}

theorem gptEntries_length (ht : typeGuid.length = 16) (hp : partitionGuid.length = 16) :
    (gptEntries typeGuid partitionGuid l label).length = 16384 := by
  rw [gptEntries_eq ht hp]
  simp only [List.length_append, ht, hp, leBytes_length, utf16leLabel_length, zeros, List.length_replicate]

/-- An entry array read back: entry 0 is the partition's, the rest is zero. -/
theorem entries_hold {m : Mem} {a : Nat} {type uuid : List Char} (ht : uuidToGptBytes type = .ok typeGuid)
    (hp : uuidToGptBytes uuid = .ok partitionGuid) (hfirst : l.partitionFirst < 2 ^ 64) (hlast : l.partitionLast < 2 ^ 64)
    (h : Holds m a (gptEntries typeGuid partitionGuid l label)) :
    EntryAt m a type uuid l.partitionFirst l.partitionLast label ∧ ∀ x, 128 ≤ x → x < 16384 → m (a + x) = 0 := by
  obtain ⟨ht, htype⟩ := uuidToGptBytes_spec ht
  obtain ⟨hp, hguid⟩ := uuidToGptBytes_spec hp
  rw [gptEntries_eq ht hp] at h
  have a0 := At.start (typeGuid ++ (partitionGuid ++ (leBytes 8 l.partitionFirst ++ (leBytes 8 l.partitionLast ++
    (leBytes 8 0 ++ (utf16leLabel label ++ zeros 16256))))))
  have a1 := a0.skip
  have a2 := a1.skip
  have a3 := a2.skip
  have a4 := a3.skip
  have a5 := a4.skip
  have a6 := a5.skip
  have h1 := h.at a1
  have h2 := (h.at a2).read64
  have h3 := (h.at a3).read64
  have h4 := (h.at a4).read64
  have h5 := h.at a5
  have hzeros := h.last a6
  simp only [ht, hp, leBytes_length, utf16leLabel_length, Nat.zero_add, Nat.reduceAdd] at h1 h2 h3 h4 h5 hzeros
  refine ⟨⟨htype h.left, hguid h1, ?_, ?_, h4, label_holds h5⟩, fun x hlow hhigh => ?_⟩
  · rw [h2, UInt64.toNat_ofNat', Nat.mod_eq_of_lt hfirst]
  · rw [h3, UInt64.toNat_ofNat', Nat.mod_eq_of_lt hlast]
  have hlen : (zeros 16256).length = 16256 := zeros_length 16256
  have hx := hzeros (x - 128) (by omega)
  rw [show a + 128 + (x - 128) = a + x by omega] at hx
  rw [hx, zeros, List.getD_eq_getElem?_getD, List.getElem?_replicate]
  split_ifs <;> rfl

theorem pieces_wellFormed {o : Options} {partitionUuid : List Char} (hl : l.Sound sizeBytes) (hbig : sizeBytes < 2 ^ 63)
    (hguid : diskGuid.length = 16) (htype : uuidToGptBytes o.type = .ok typeGuid)
    (hpart : uuidToGptBytes partitionUuid = .ok partitionGuid) {c : Created}
    (hc : c = ⟨(pieces crc l diskGuid (gptEntries typeGuid partitionGuid l o.label)).foldl DiskImage.write
      ⟨sizeBytes, fun _ => 0⟩, sizeBytes, l.partitionFirst, l.partitionLast⟩) :
    WellFormed crc o partitionUuid c (headerAt c.image.bytes sectorSize) (headerAt c.image.bytes (l.lastLba * sectorSize)) := by
  have ht := (uuidToGptBytes_spec htype).1
  have hp := (uuidToGptBytes_spec hpart).1
  have hentries : (gptEntries typeGuid partitionGuid l o.label).length = 16384 := gptEntries_length ht hp
  have hsectors : gptEntrySectors = 32 := rfl
  have hhold := pieces_hold crc hl hguid hentries ⟨sizeBytes, fun _ => 0⟩
  have hsize := foldl_write_size (pieces_within crc hl hguid hentries) ⟨sizeBytes, fun _ => 0⟩ rfl
  obtain ⟨hsizeEq, hlong, hfu, hlu, hpf, hpl⟩ := hl
  subst hc
  simp only at hhold hsize ⊢
  generalize (pieces crc l diskGuid (gptEntries typeGuid partitionGuid l o.label)).foldl DiskImage.write
    ⟨sizeBytes, fun _ => 0⟩ = img at hhold hsize ⊢
  simp only [pieces, List.forall_mem_cons, gptHeader_eq crc hguid, hsectors, sectorSize] at hhold
  obtain ⟨-, hprimary, hfirst, hsecond, hbackup, -⟩ := hhold
  have hP := headerAt_holds hguid hprimary.left
  have hB := headerAt_holds hguid hbackup.left
  have hcP := checkedBytes_holds hguid hprimary.left
  have hcB := checkedBytes_holds hguid hbackup.left
  have heP := entries_hold htype hpart (by omega) (by omega) hfirst
  have heB := entries_hold htype hpart (by omega) (by omega) hsecond
  have hbP := hfirst.bytesAt
  have hbB := hsecond.bytesAt
  rw [hentries] at hbP hbB
  have hsector : sectorSize = 512 := rfl
  have hone : (UInt64.ofNat 1).toNat = 1 := rfl
  have htwo : (UInt64.ofNat 2).toNat = 2 := rfl
  have hcount : (128 : UInt32).toNat = 128 := rfl
  have hnat : ∀ n, n ≤ l.lastLba → (UInt64.ofNat n).toNat = n := fun n hn => by
    rw [UInt64.toNat_ofNat']
    omega
  have hlba := hnat l.lastLba (Nat.le_refl _)
  have hback := hnat (l.lastLba - 32) (by omega)
  have hfu' := hnat l.firstUsable (by omega)
  have hlu' := hnat l.lastUsable (by omega)
  rw [hsector, hP, hB]
  constructor
  case size_eq => exact hsize
  case backup_last => simp only [hlba, sectorSize]; omega
  case pointers => exact ⟨rfl, rfl, rfl, rfl⟩
  case disjoint =>
    simp only [HeaderFields.entries, sectors, sectorSize, hlba, hback, htwo, hcount, List.pairwise_cons,
      List.forall_mem_cons, Range.disjoint_iff]
    refine ⟨⟨by omega, by omega, by omega, by omega, fun _ h => by cases h⟩,
      ⟨by omega, by omega, by omega, fun _ h => by cases h⟩, ⟨by omega, by omega, fun _ h => by cases h⟩,
      ⟨by omega, fun _ h => by cases h⟩, (fun _ h => by cases h), List.Pairwise.nil⟩
  case inside =>
    simp only [HeaderFields.entries, sectors, sectorSize, hlba, hback, htwo, hcount, List.forall_mem_cons]
    refine ⟨?_, ?_, ?_, ?_, ?_, fun _ h => by cases h⟩
    all_goals exact Range.inside_of_le (Nat.zero_le _) (by simp only; omega)
  case partition_usable => simp only [hfu', hlu']; omega
  case usable_clear =>
    simp only [HeaderFields.usable, HeaderFields.entries, sectors, sectorSize, hfu', hlu', hback, htwo, hcount,
      Range.disjoint_iff]
    omega
  case agree => rfl
  case headerCrc =>
    simp only [hlba, sectorSize, hcP, hcB, UInt32.ofNat_toNat, and_self]
  case entriesCrc =>
    simp only [HeaderFields.entries, sectorSize, hback, htwo, hcount, hbP, hbB, Nat.reduceMul, and_self]
  case entry =>
    simp only [HeaderFields.entries, sectorSize, hback, htwo, hcount, List.forall_mem_cons, gptEntrySize, Nat.reduceMul]
    have hne : l.partitionFirst ≠ 0 := by omega
    exact ⟨⟨heP.1, hne, heP.2⟩, ⟨heB.1, hne, heB.2⟩, fun _ h => by cases h⟩

end Image

theorem ok_of_bind {α β : Type} {x : Except Failure α} {f : α → Except Failure β} {b : β} (h : x >>= f = .ok b) :
    ∃ a, x = .ok a ∧ f a = .ok b := by
  cases x with
  | error e => cases h
  | ok a => exact ⟨a, rfl, h⟩

/-- What a run of the script has gone through when it ends. -/
theorem create_cases {crc : List UInt8 → UInt32} {o : Options} {diskUuid partitionUuid : List Char} {c : Created}
    (h : create crc o diskUuid partitionUuid = .ok c) :
    ∃ value sizeBytes l diskGuid partitionGuid typeGuid, o.size = some value ∧ parseSize value = .ok sizeBytes ∧
      layout sizeBytes = .ok l ∧ uuidToGptBytes diskUuid = .ok diskGuid ∧
      uuidToGptBytes partitionUuid = .ok partitionGuid ∧ uuidToGptBytes o.type = .ok typeGuid ∧ sizeBytes < 2 ^ 63 ∧
      c = ⟨(pieces crc l diskGuid (gptEntries typeGuid partitionGuid l o.label)).foldl DiskImage.write
        ⟨sizeBytes, fun _ => 0⟩, sizeBytes, l.partitionFirst, l.partitionLast⟩ := by
  unfold create at h
  obtain ⟨_, -, h⟩ := ok_of_bind h
  obtain ⟨value, hvalue, h⟩ := ok_of_bind h
  obtain ⟨sizeBytes, hsize, h⟩ := ok_of_bind h
  obtain ⟨l, hl, h⟩ := ok_of_bind h
  obtain ⟨diskGuid, hdisk, h⟩ := ok_of_bind h
  obtain ⟨partitionGuid, hpart, h⟩ := ok_of_bind h
  obtain ⟨typeGuid, htype, h⟩ := ok_of_bind h
  obtain ⟨img, himg, h⟩ := ok_of_bind h
  unfold truncate at himg
  split_ifs at himg with hbig
  cases himg
  cases h
  have hgiven : o.size = some value := by
    cases ho : o.size with
    | none => rw [ho] at hvalue; cases hvalue
    | some v => rw [ho] at hvalue; cases hvalue; rfl
  exact ⟨value, sizeBytes, l, diskGuid, partitionGuid, typeGuid, hgiven, hsize, hl, hdisk, hpart, htype, by omega, rfl⟩

/-- Whatever arguments the script accepts, it leaves an image of the requested size
    whose headers, entry arrays and partition fit together. -/
theorem image_wellFormed (crc : List UInt8 → UInt32) (o : Options) (diskUuid partitionUuid : List Char) (c : Created)
    (h : create crc o diskUuid partitionUuid = .ok c) :
    (∃ value, o.size = some value ∧ Asks value c.sizeBytes) ∧
    WellFormed crc o partitionUuid c (headerAt c.image.bytes sectorSize)
      (headerAt c.image.bytes ((headerAt c.image.bytes sectorSize).backupLba.toNat * sectorSize)) := by
  obtain ⟨value, sizeBytes, l, diskGuid, partitionGuid, typeGuid, hvalue, hsize, hl, hdisk, hpart, htype, hbig, hc⟩ :=
    create_cases h
  have hw := pieces_wellFormed (layout_sound hl) hbig (uuidToGptBytes_spec hdisk).1 htype hpart hc
  refine ⟨⟨value, hvalue, by rw [hc]; exact parseSize_asks hsize⟩, ?_⟩
  have hlast : (headerAt c.image.bytes sectorSize).backupLba.toNat = l.lastLba := by
    have hback := hw.backup_last
    have hlayout := (layout_sound hl).size_eq
    rw [hc] at hback ⊢
    simp only [sectorSize] at hback hlayout ⊢
    omega
  rw [hlast]
  exact hw

def smallest : Options where
  image := some ['z']
  size := some ['4', '1', 'k']

/-- 41 KiB are the 82 sectors of the smallest image there is. -/
theorem image_wellFormed_smallest :
    ∃ c, create (fun _ => 0) smallest zfsGuid zfsGuid = .ok c ∧
      WellFormed (fun _ => 0) smallest zfsGuid c (headerAt c.image.bytes sectorSize)
        (headerAt c.image.bytes ((headerAt c.image.bytes sectorSize).backupLba.toNat * sectorSize)) := by
  have hok : (create (fun _ => 0) smallest zfsGuid zfsGuid).isOk = true := by decide
  cases hc : create (fun _ => 0) smallest zfsGuid zfsGuid with
  | error e => rw [hc] at hok; cases hok
  | ok c => exact ⟨c, rfl, (image_wellFormed _ _ _ _ c hc).2⟩

/-! ## The protective MBR -/

/-- Sector 0 of a disk of `totalSectors` sectors: one record, of type `0xEE`, from LBA 1 on over the
    whole disk, as far as 32 bits count it. -/
structure ProtectiveMbr (m : Mem) (totalSectors : Nat) : Prop where
  signature : m 510 = 0x55 ∧ m 511 = 0xAA
  type : m 450 = 0xEE
  first : read32 m 454 = 1
  sectors : read32 m 458 = UInt32.ofNat (min (totalSectors - 1) 0xffffffff)
  others : ∀ x, 462 ≤ x → x < 510 → m x = 0

set_option maxRecDepth 4096 in
/-- The record is a byte short, so its last two fields begin a byte early. -/
theorem protectiveMbr_holds {m : Mem} {totalSectors : Nat} (h : Holds m 0 (protectiveMbr totalSectors)) :
    (m 510 = 0x55 ∧ m 511 = 0xAA) ∧ m 450 = 0xEE ∧ read32 m 454 = 0x01000000 ∧ read32 m 458 = 0 ∧
      ∀ x, 462 ≤ x → x < 510 → m x = 0 := by
  have hbyte : ∀ x < 512, m x = (protectiveMbr 0).getD x 0 := by
    intro x hx
    have hx' := h x (by rw [protectiveMbr_length]; exact hx)
    rw [Nat.zero_add] at hx'
    exact hx'
  have hword : ∀ a, a + 4 ≤ 512 → read32 m a = read32 (fun x => (protectiveMbr 0).getD x 0) a := fun a ha =>
    read32_congr fun k hk => hbyte _ (by omega)
  have hrest : ∀ x < 510, 462 ≤ x → (protectiveMbr 0).getD x 0 = 0 := by decide
  refine ⟨⟨?_, ?_⟩, ?_, ?_, ?_, fun x hlo hhi => ?_⟩
  · exact (hbyte 510 (by decide)).trans (by decide)
  · exact (hbyte 511 (by decide)).trans (by decide)
  · exact (hbyte 450 (by decide)).trans (by decide)
  · exact (hword 454 (by decide)).trans (by decide)
  · exact (hword 458 (by decide)).trans (by decide)
  · exact (hbyte x (by omega)).trans (hrest x hhi hlo)

/-- No image that the script makes has a protective MBR: the record begins at LBA `0x01000000` and
    has no sectors, whatever the size. The rest of the sector is as it should be. -/
theorem no_protective_mbr (crc : List UInt8 → UInt32) (o : Options) (diskUuid partitionUuid : List Char) (c : Created)
    (h : create crc o diskUuid partitionUuid = .ok c) :
    ¬ ProtectiveMbr c.image.bytes (c.sizeBytes / sectorSize) ∧ sectorSize ≤ c.image.size ∧
    (c.image.bytes 510 = 0x55 ∧ c.image.bytes 511 = 0xAA) ∧ c.image.bytes 450 = 0xEE ∧
    read32 c.image.bytes 454 = 0x01000000 ∧ read32 c.image.bytes 458 = 0 ∧
    ∀ x, 462 ≤ x → x < 510 → c.image.bytes x = 0 := by
  obtain ⟨value, sizeBytes, l, diskGuid, partitionGuid, typeGuid, -, -, hl, hdisk, hpart, htype, -, rfl⟩ := create_cases h
  have hguid := (uuidToGptBytes_spec hdisk).1
  have hentries : (gptEntries typeGuid partitionGuid l o.label).length = 16384 :=
    gptEntries_length (uuidToGptBytes_spec htype).1 (uuidToGptBytes_spec hpart).1
  have hsound := layout_sound hl
  have hheld := protectiveMbr_holds (pieces_hold crc hsound hguid hentries ⟨sizeBytes, fun _ => 0⟩ _ List.mem_cons_self)
  have hsize := foldl_write_size (pieces_within crc hsound hguid hentries) ⟨sizeBytes, fun _ => 0⟩ rfl
  refine ⟨fun hmbr => ?_, ?_, hheld⟩
  · exact absurd (hmbr.first.symm.trans hheld.2.2.1) (by decide)
  · have hlong := hsound.long
    have heq := hsound.size_eq
    rw [hsize]
    simp only [sectorSize] at heq ⊢
    omega

theorem no_protective_mbr_smallest :
    ∃ c, create (fun _ => 0) smallest zfsGuid zfsGuid = .ok c ∧ ¬ ProtectiveMbr c.image.bytes (c.sizeBytes / sectorSize) := by
  have hok : (create (fun _ => 0) smallest zfsGuid zfsGuid).isOk = true := by decide
  cases hc : create (fun _ => 0) smallest zfsGuid zfsGuid with
  | error e => rw [hc] at hok; cases hok
  | ok c => exact ⟨c, rfl, (no_protective_mbr _ _ _ _ c hc).1⟩

/-- The first sector of the record, of an image of 41 KiB. -/
theorem the_record_begins_elsewhere :
    (create (fun _ => 0) smallest zfsGuid zfsGuid).toOption.map
      (fun c => (read32 c.image.bytes 454, read32 c.image.bytes 458, c.sizeBytes / sectorSize)) = some (0x01000000, 0, 82) := by
  decide +kernel

end Panthera.Storage.Gpt
