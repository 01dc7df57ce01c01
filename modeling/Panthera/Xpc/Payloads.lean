/-
  Panthera.Xpc.Payloads — what the reader makes of a payload that its writer has not made
  (`libxpc_impl.c`: `xpc_deserialize_dict`, called by
  `_xpc_mach_receive` on whatever bytes a message brings).

  The loop goes from entry to entry by the lengths alone, and no read of a value moves it:
  which entries it comes to the end of (`readRaw`) is a function of the payload, and the
  dictionary is what those entries make of it in order (`readEntries_eq_foldlM`). So

  - a read leaves the payload exactly if that of one of these entries does
    (`deserialize_inside_iff`);
  - behind the header nothing makes the reader return NULL: an entry that is cut off ends the
    loop and one of an unknown type is passed over (`announced_entries_iff`).
-/

import Panthera.Lib.Run
import Panthera.Xpc.Serialize

namespace Panthera.Xpc

open Lib.Bytes Lib.Run Lib.Wire

/-! ## The entries that the loop comes to -/

/-- An entry as the loop has it in hand at the `switch`: the type, where the key starts,
    where the value starts, and the length of the value. -/
structure RawEntry where
  type : UInt32
  key : Nat
  value : Nat
  valLen : UInt32
  deriving DecidableEq, Repr

/-- Up to `count` entries from `p` on, up to the first that does not fit. -/
def readRaw (buf : List UInt8) : Nat → Nat → List RawEntry
  | 0, _ => []
  | count + 1, p =>
    let key := p + 4 + 4
    let keyEnd := key + (read32 (memOf buf) (p + 4)).toNat
    let valLen := read32 (memOf buf) keyEnd
    let next := keyEnd + 4 + (pad4 valLen).toNat
    if buf.length < p + 12 ∨ buf.length < keyEnd + 4 ∨ buf.length < next then []
    else ⟨read32 (memOf buf) p, key, keyEnd + 4, valLen⟩ :: readRaw buf count next

/-- The reads at the `switch` and what they put into the dictionary. -/
def RawEntry.read (buf : List UInt8) (d : Dict) (e : RawEntry) : Option Dict := readValue buf d e.type e.key e.value e.valLen

theorem readEntries_eq_foldlM (buf : List UInt8) : ∀ (count p : Nat) (d : Dict),
    readEntries buf count p d = (readRaw buf count p).foldlM (RawEntry.read buf) d := by
  intro count
  induction count with
  | zero => intro p d; rfl
  | succ count ih =>
    intro p d
    rw [readEntries, readRaw]
    by_cases hp : buf.length < p + 12
    · rw [if_pos hp, if_pos (.inl hp)]
      rfl
    rw [if_neg hp, read32?_eq (by omega), read32?_eq (by omega), Option.bind_eq_bind, Option.bind_some,
      Option.bind_eq_bind, Option.bind_some]
    by_cases hk : buf.length < p + 4 + 4 + (read32 (memOf buf) (p + 4)).toNat + 4
    · -- The source asks for the key first and then for the four bytes behind it.
      have hstop : ∀ x : Option Dict, (if buf.length < p + 4 + 4 + (read32 (memOf buf) (p + 4)).toNat then some d
          else if buf.length < p + 4 + 4 + (read32 (memOf buf) (p + 4)).toNat + 4 then some d else x) = some d := by
        intro x
        rw [if_pos hk, ite_self]
      rw [hstop, if_pos (.inr (.inl hk))]
      rfl
    rw [if_neg (by omega), if_neg hk, read32?_eq (by omega), Option.bind_some]
    by_cases hv : buf.length < p + 4 + 4 + (read32 (memOf buf) (p + 4)).toNat + 4 +
        (pad4 (read32 (memOf buf) (p + 4 + 4 + (read32 (memOf buf) (p + 4)).toNat))).toNat
    · rw [if_pos hv, if_pos (.inr (.inr hv))]
      rfl
    rw [if_neg hv, if_neg (not_or.mpr ⟨hp, not_or.mpr ⟨hk, hv⟩⟩), List.foldlM_cons]
    exact bind_congr fun d' => ih _ d'

/-! ## The header -/

/-- The reader goes on to the entries. -/
def ValidHeader (buf : List UInt8) : Prop :=
  16 ≤ buf.length ∧ read32 (memOf buf) 0 = wireMagic ∧ read32 (memOf buf) 4 = wireVersion

instance (buf : List UInt8) : Decidable (ValidHeader buf) := inferInstanceAs (Decidable (_ ∧ _ ∧ _))

/-- `count` -/
def announced (buf : List UInt8) : Nat := (read32 (memOf buf) 8).toNat

variable {buf : List UInt8}

theorem deserializeDict_of_valid (h : ValidHeader buf) :
    deserializeDict buf = ((readRaw buf (announced buf) 16).foldlM (RawEntry.read buf) .empty).map some := by
  obtain ⟨hlen, hmagic, hversion⟩ := h
  rw [deserializeDict, if_neg (by omega), read32?_eq (by omega), read32?_eq (by omega), read32?_eq (by omega)]
  simp only [Option.bind_eq_bind, Option.bind_some]
  rw [if_neg (by simp [hmagic, hversion]), readEntries_eq_foldlM]
  rfl

theorem deserializeDict_of_invalid (h : ¬ ValidHeader buf) : deserializeDict buf = some none := by
  rw [deserializeDict]
  split
  next => rfl
  next hlen =>
    rw [read32?_eq (by omega), read32?_eq (by omega), read32?_eq (by omega)]
    simp only [Option.bind_eq_bind, Option.bind_some]
    refine if_pos ?_
    by_contra hne
    obtain ⟨hmagic, hversion⟩ := not_or.mp hne
    exact h ⟨by omega, not_not.mp hmagic, not_not.mp hversion⟩

/-- No entry makes the reader give the dictionary up. -/
theorem deserializeDict_ne_null (h : ValidHeader buf) : deserializeDict buf ≠ some none := by
  rw [deserializeDict_of_valid h]
  intro hnull
  obtain ⟨d, -, hd⟩ := Option.map_eq_some_iff.mp hnull
  exact nomatch hd

/-! ## Reads inside the payload -/

/-- A type of `_xpc_wire_type`. -/
def KnownType (type : UInt32) : Prop := type ∈ [1, 2, 3, 4, 5, 6, 7]

instance (type : UInt32) : Decidable (KnownType type) := inferInstanceAs (Decidable (_ ∈ _))

/-- A NUL comes behind `off`. -/
def Terminated (buf : List UInt8) (off : Nat) : Prop := 0 ∈ buf.drop off

instance (buf : List UInt8) (off : Nat) : Decidable (Terminated buf off) := inferInstanceAs (Decidable (_ ∈ _))

/-- The bytes that the reads of an entry take are there. An entry of an unknown type is not
    read at all. -/
@[mk_iff] structure RawEntry.Readable (buf : List UInt8) (e : RawEntry) : Prop where
  key : KnownType e.type → Terminated buf e.key
  string : e.type = 1 → Terminated buf e.value
  word : e.type = 2 ∨ e.type = 3 ∨ e.type = 4 → e.value + 8 ≤ buf.length
  bool : e.type = 5 → e.value < buf.length
  data : e.type = 6 → e.value + e.valLen.toNat ≤ buf.length

theorem cstringAt_ne_none_iff {off : Nat} : cstringAt? buf off ≠ none ↔ Terminated buf off := by
  simp [cstringAt?, Terminated]

theorem read_ne_none_iff (buf : List UInt8) (d : Dict) (e : RawEntry) : e.read buf d ≠ none ↔ e.Readable buf := by
  -- Whatever the dictionary is: one read of the value, one of the key, and no other fault.
  have hreads : ∀ {α : Type} (x : Option α) (f : α → CString → Dict),
      (x.bind fun v => (cstringAt? buf e.key).bind fun key => some (f v key)) ≠ none ↔ x ≠ none ∧ Terminated buf e.key := by
    intro α x f
    rw [← cstringAt_ne_none_iff]
    cases x with
    | none => simp
    | some v => cases cstringAt? buf e.key <;> simp
  have hword : ∀ {off}, read64? buf off ≠ none ↔ off + 8 ≤ buf.length := by simp [read64?]
  have hslice : ∀ {off n}, sliceAt? buf off n ≠ none ↔ off + n ≤ buf.length := by simp [sliceAt?]
  have hbyte : ∀ {off : Nat}, buf[off]? ≠ none ↔ off < buf.length := by simp
  obtain ⟨type, key, value, valLen⟩ := e
  rw [RawEntry.readable_iff, RawEntry.read, readValue]
  split
  next h =>
    subst h
    have hboth : ((cstringAt? buf key).bind fun key => (cstringAt? buf value).bind fun s => some (d.setString key (some s))) ≠ none ↔
        Terminated buf key ∧ Terminated buf value := by
      rw [← cstringAt_ne_none_iff, ← cstringAt_ne_none_iff]
      cases cstringAt? buf key with
      | none => simp
      | some k => cases cstringAt? buf value <;> simp
    exact hboth.trans (by simp [KnownType])
  split
  next h =>
    subst h
    exact (hreads _ _).trans (by simp [hword, KnownType, and_comm])
  split
  next h =>
    subst h
    exact (hreads _ _).trans (by simp [hword, KnownType, and_comm])
  split
  next h =>
    subst h
    exact (hreads _ _).trans (by simp [hword, KnownType, and_comm])
  split
  next h =>
    subst h
    exact (hreads _ _).trans (by simp [hbyte, KnownType, and_comm])
  split
  next h =>
    subst h
    exact (hreads _ _).trans (by simp [hslice, KnownType, and_comm])
  split
  next h =>
    subst h
    exact (hreads (some ()) fun _ key => d.setValue key (some .null)).trans (by simp [KnownType])
  next h1 h2 h3 h4 h5 h6 h7 =>
    simp [KnownType, *]

/-- No byte outside the payload is read exactly if the entries that the loop comes to have
    the bytes that their types take. -/
theorem deserialize_inside_iff (buf : List UInt8) :
    deserializeDict buf ≠ none ↔ (ValidHeader buf → ∀ e ∈ readRaw buf (announced buf) 16, e.Readable buf) := by
  by_cases h : ValidHeader buf
  · rw [deserializeDict_of_valid h, Ne, Option.map_eq_none_iff, imp_iff_right h]
    exact foldlM_ne_none_iff (read_ne_none_iff buf) _ _
  · rw [deserializeDict_of_invalid h]
    exact iff_of_true (fun h => nomatch h) fun h' => absurd h' h

/-- An `int64` for the key "n" with a value of no bytes, at the end of the payload. -/
def shortNumber : List UInt8 :=
  le32 wireMagic ++ le32 wireVersion ++ le32 1 ++ le32 16 ++ (le32 2 ++ le32 4 ++ [110, 0, 0, 0] ++ le32 0)

theorem a_number_is_read_behind_the_end : shortNumber.length = 32 ∧ ValidHeader shortNumber ∧ deserializeDict shortNumber = none :=
  ⟨rfl, by decide, by decide⟩

/-! ## The entries that the header announces -/

/-- The type is known, and the bytes are those of a value of that type: a string has its NUL
    among them, a number is eight of them. -/
def HasValue (type : UInt32) (value : List UInt8) : Prop :=
  type = 1 ∧ 0 ∈ value ∨ type ∈ [2, 3, 4] ∧ 8 ≤ value.length ∨ type = 5 ∧ 1 ≤ value.length ∨ type ∈ [6, 7]

instance (type : UInt32) (value : List UInt8) : Decidable (HasValue type value) := inferInstanceAs (Decidable (_ ∨ _ ∨ _ ∨ _))

/-- So many entries from `p` on, each with all its fields inside the payload, a key that ends in its
    own bytes and a value. A value takes its length rounded up, with no wrap. -/
def Complete (buf : List UInt8) : Nat → Nat → Prop
  | 0, _ => True
  | count + 1, p =>
    let key := p + 4 + 4
    let keyLen := (read32 (memOf buf) (p + 4)).toNat
    let value := key + keyLen + 4
    let valLen := (read32 (memOf buf) (key + keyLen)).toNat
    let next := value + Lib.Pages.roundUp4 valLen
    key ≤ buf.length ∧ value ≤ buf.length ∧ next ≤ buf.length ∧ 0 ∈ (buf.drop key).take keyLen ∧
      HasValue (read32 (memOf buf) p) ((buf.drop value).take valLen) ∧ Complete buf count next

instance Complete.decide (buf : List UInt8) : ∀ count p, Decidable (Complete buf count p)
  | 0, _ => inferInstanceAs (Decidable True)
  | count + 1, _ =>
    haveI := Complete.decide buf count
    inferInstanceAs (Decidable (_ ∧ _ ∧ _ ∧ _ ∧ _ ∧ _))

/-- The payload has all of the entries that its header announces. -/
def AllAnnounced (buf : List UInt8) : Prop := Complete buf (announced buf) 16

instance (buf : List UInt8) : Decidable (AllAnnounced buf) := inferInstanceAs (Decidable (Complete _ _ _))

/-- A payload with a valid header is answered as it should be (a dictionary only for one that
    has all its entries, NULL for any other) exactly if it has all its entries. -/
theorem announced_entries_iff (buf : List UInt8) (h : ValidHeader buf) :
    ((∀ d, deserializeDict buf = some (some d) → AllAnnounced buf) ∧
      (¬ AllAnnounced buf → deserializeDict buf = some none)) ↔ AllAnnounced buf := by
  constructor
  · rintro ⟨-, hnull⟩
    by_contra hmissing
    exact deserializeDict_ne_null h (hnull hmissing)
  · exact fun hall => ⟨fun _ _ => hall, fun hmissing => absurd hall hmissing⟩

/-- The header announces `count` entries, the payload has one. -/
def oneEntry (count : UInt32) : List UInt8 :=
  le32 wireMagic ++ le32 wireVersion ++ le32 count ++ le32 20 ++ (le32 5 ++ le32 4 ++ [98, 0, 0, 0] ++ le32 1 ++ [1, 0, 0, 0])

theorem announced_entry_is_missing : ValidHeader (oneEntry 2) ∧ ¬ AllAnnounced (oneEntry 2) ∧
    (deserializeDict (oneEntry 2)).map (·.map fun d => d.entries.map fun e => (e.1.bytes, e.2)) =
      some (some [([98], .bool true)]) := ⟨by decide, by decide, by decide⟩

theorem announced_entries_iff_oneEntry : ValidHeader (oneEntry 1) ∧ AllAnnounced (oneEntry 1) ∧
    (∀ d, deserializeDict (oneEntry 1) = some (some d) → AllAnnounced (oneEntry 1)) ∧
      (¬ AllAnnounced (oneEntry 1) → deserializeDict (oneEntry 1) = some none) :=
  ⟨by decide, by decide, (announced_entries_iff (oneEntry 1) (by decide)).mpr (by decide)⟩

end Panthera.Xpc
