/-
  Panthera.Lib.Wire — byte strings made of little-endian words and padded fields, filled
  from left to right into a zeroed buffer and read back with a cursor.

  `Appends f bytes` says that a piece of a writer fills in `bytes` at the cursor; pieces
  compose (`Appends.bind`, `Appends.foldlM`), and a writer that appends fills a zeroed
  buffer (`Appends.start`). `At bytes off rest` says that `rest` is what lies
  behind the cursor `off`: a read of the first field of `rest` succeeds (`At.read32`,
  `At.read64`, `At.cstring`) and moving past it leaves the fields behind it (`At.skip`).
  `Holds m a bytes` says that the string stands in memory at `a`; then so does each of its
  fields (`Holds.at`), and a word among them is read back (`Holds.read32`, `Holds.read64`).
-/

import Panthera.Lib.Bytes
import Panthera.Lib.Pages

namespace Panthera.Lib.Wire

open Lib.Bytes Lib.Pages

/-! ## Words -/

def leBytes : Nat → Nat → List UInt8
  | 0, _ => []
  | n + 1, v => UInt8.ofNat v :: leBytes n (v / 256)

def le32 (v : UInt32) : List UInt8 := leBytes 4 v.toNat

def le64 (v : UInt64) : List UInt8 := leBytes 8 v.toNat

@[simp] theorem leBytes_length : ∀ n v, (leBytes n v).length = n := by
  intro n
  induction n with
  | zero => intro v; rfl
  | succ n ih => intro v; simp [leBytes, ih]

@[simp] theorem le32_length (v : UInt32) : (le32 v).length = 4 := leBytes_length _ _

@[simp] theorem le64_length (v : UInt64) : (le64 v).length = 8 := leBytes_length _ _

theorem readLE_leBytes : ∀ (n v : Nat) (pre rest : List UInt8),
    readLE n (memOf (pre ++ (leBytes n v ++ rest))) pre.length = v % 256 ^ n := by
  intro n
  induction n with
  | zero => intro v pre rest; simp [readLE, Nat.mod_one]
  | succ n ih =>
    intro v pre rest
    have htail := ih (v / 256) (pre ++ [UInt8.ofNat v]) rest
    have hhead : memOf (pre ++ (leBytes (n + 1) v ++ rest)) pre.length = UInt8.ofNat v := by simp [memOf, leBytes]
    simp only [List.append_assoc, List.cons_append, List.nil_append, List.length_append, List.length_cons,
      List.length_nil] at htail
    rw [readLE, hhead, leBytes, List.cons_append, htail, Nat.pow_succ, Nat.mul_comm (256 ^ n), Nat.mod_mul]
    simp

/-! ## Reading -/

/-- Behind the first `off` bytes comes `rest`, to the end. -/
def At (bytes : List UInt8) (off : Nat) (rest : List UInt8) : Prop := ∃ pre, bytes = pre ++ rest ∧ pre.length = off

theorem At.start (bytes : List UInt8) : At bytes 0 bytes := ⟨[], rfl, rfl⟩

section

variable {bytes field rest : List UInt8} {off : Nat}

theorem At.skip (h : At bytes off (field ++ rest)) : At bytes (off + field.length) rest := by
  obtain ⟨pre, rfl, rfl⟩ := h
  exact ⟨pre ++ field, by simp, by simp⟩

theorem At.length (h : At bytes off rest) : bytes.length = off + rest.length := by
  obtain ⟨pre, rfl, rfl⟩ := h
  simp

theorem At.drop (h : At bytes off rest) : bytes.drop off = rest := by
  obtain ⟨pre, rfl, rfl⟩ := h
  simp

theorem At.getElem? (h : At bytes off rest) : bytes[off]? = rest[0]? := by
  obtain ⟨pre, rfl, rfl⟩ := h
  rw [List.getElem?_append_right (Nat.le_refl _), Nat.sub_self]

theorem At.read32 {v : UInt32} (h : At bytes off (le32 v ++ rest)) : read32? bytes off = some v := by
  obtain ⟨pre, rfl, rfl⟩ := h
  have hv := v.toNat_lt
  rw [read32?_eq (by simp), read32, le32, readLE_leBytes, Nat.mod_eq_of_lt (by omega), UInt32.ofNat_toNat]

theorem At.read64 {v : UInt64} (h : At bytes off (le64 v ++ rest)) : read64? bytes off = some v := by
  obtain ⟨pre, rfl, rfl⟩ := h
  have hv := v.toNat_lt
  rw [read64?_eq (by simp), read64, le64, readLE_leBytes, Nat.mod_eq_of_lt (by omega), UInt64.ofNat_toNat]

end

/-! ## Byte strings in memory -/

def bytesAt (m : Mem) (a n : Nat) : List UInt8 := (List.range n).map fun i => m (a + i)

/-- The byte string stands at `a`. -/
def Holds (m : Mem) (a : Nat) (bytes : List UInt8) : Prop := ∀ x < bytes.length, m (a + x) = bytes.getD x 0

section Holds

variable {m : Mem} {a off : Nat} {bytes field rest : List UInt8}

theorem Holds.left (h : Holds m a (field ++ rest)) : Holds m a field := by
  intro x hx
  rw [h x (by simp; omega), List.getD_eq_getElem?_getD, List.getElem?_append_left hx, List.getD_eq_getElem?_getD]

theorem Holds.at (h : Holds m a bytes) (hat : At bytes off (field ++ rest)) : Holds m (a + off) field := by
  obtain ⟨pre, rfl, rfl⟩ := hat
  intro x hx
  rw [Nat.add_assoc, h _ (by simp; omega), List.getD_eq_getElem?_getD, List.getElem?_append_right (by omega),
    Nat.add_sub_cancel_left, List.getElem?_append_left hx, List.getD_eq_getElem?_getD]

theorem Holds.last (h : Holds m a bytes) (hat : At bytes off field) : Holds m (a + off) field := by
  rw [← List.append_nil field] at hat
  exact h.at hat

theorem Holds.bytesAt (h : Holds m a bytes) : bytesAt m a bytes.length = bytes := by
  apply List.ext_getElem
  · simp [Wire.bytesAt]
  · intro i hi hi'
    simp [Wire.bytesAt, h i hi', List.getElem?_eq_getElem hi']

theorem Holds.readLE {k v : Nat} (h : Holds m a (leBytes k v)) : readLE k m a = v % 256 ^ k := by
  have hword := readLE_leBytes k v [] []
  rw [List.nil_append, List.append_nil] at hword
  rw [← hword, ← Nat.add_zero a, ← readLE_from]
  refine readLE_congr fun i hi => ?_
  rw [Nat.zero_add]
  exact h i (by simpa using hi)

theorem Holds.read32 {v : Nat} (h : Holds m a (leBytes 4 v)) : read32 m a = UInt32.ofNat v := by
  rw [Bytes.read32, h.readLE]
  exact UInt32.toNat_inj.mp (by simp)

theorem Holds.read64 {v : Nat} (h : Holds m a (leBytes 8 v)) : read64 m a = UInt64.ofNat v := by
  rw [Bytes.read64, h.readLE]
  exact UInt64.toNat_inj.mp (by simp)

end Holds

/-! ## C strings -/

/-- A string without its terminator. -/
structure CString where
  bytes : List UInt8
  no_nul : 0 ∉ bytes
  deriving DecidableEq, Repr

/-- The string that ends at the first NUL. -/
def CString.of (bytes : List UInt8) : CString :=
  ⟨bytes.takeWhile (· ≠ 0), fun h => by simpa using List.all_eq_true.mp List.all_takeWhile _ h⟩

/-- The string that starts at `off`; without a terminator inside the bytes the read faults. -/
def cstringAt? (bytes : List UInt8) (off : Nat) : Option CString :=
  if 0 ∈ bytes.drop off then some (.of (bytes.drop off)) else none

/-- So many bytes from `off` on; a read outside the bytes faults. -/
def sliceAt? (bytes : List UInt8) (off n : Nat) : Option (List UInt8) :=
  if off + n ≤ bytes.length then some ((bytes.drop off).take n) else none

theorem At.slice {bytes field rest : List UInt8} {off : Nat} (h : At bytes off (field ++ rest)) :
    sliceAt? bytes off field.length = some field := by
  have hlen := h.length
  rw [List.length_append] at hlen
  rw [sliceAt?, if_pos (by omega), h.drop, List.take_left]

theorem At.cstring {bytes rest : List UInt8} {off : Nat} {s : CString} (h : At bytes off (s.bytes ++ 0 :: rest)) :
    cstringAt? bytes off = some s := by
  have htake : (s.bytes ++ 0 :: rest).takeWhile (· ≠ 0) = s.bytes := by
    rw [List.takeWhile_append_of_pos fun b hb => by simpa using fun h0 : b = 0 => s.no_nul (h0 ▸ hb)]
    simp
  simp only [cstringAt?, CString.of, h.drop, htake]
  simp

/-! ## Filling -/

def zeros (n : Nat) : List UInt8 := List.replicate n 0

@[simp] theorem zeros_length (n : Nat) : (zeros n).length = n := List.length_replicate

@[simp] theorem zeros_zero : zeros 0 = [] := rfl

theorem zeros_add (n k : Nat) : zeros (n + k) = zeros n ++ zeros k := (List.replicate_append_replicate).symm

/-- A field with the zeros that fill its last word. -/
def padded (field : List UInt8) : List UInt8 := field ++ zeros (roundUp4 field.length - field.length)

@[simp] theorem padded_length (field : List UInt8) : (padded field).length = roundUp4 field.length := by
  have := le_roundUp4 field.length
  simp only [padded, List.length_append, zeros_length]
  omega

/-- `memcpy(buf + off, bs)`; a write that is not inside the buffer faults. -/
def poke? (buf : List UInt8) (off : Nat) (bs : List UInt8) : Option (List UInt8) :=
  if off + bs.length ≤ buf.length then some (buf.take off ++ bs ++ buf.drop (off + bs.length)) else none

/-- What is zero may be zeroed. -/
theorem poke?_zeros (done : List UInt8) (n room : Nat) :
    poke? (done ++ zeros (n + room)) done.length (zeros n) = some (done ++ zeros (n + room)) := by
  have hdrop : (done ++ zeros (n + room)).drop (done.length + n) = zeros room := by
    rw [zeros_add, ← List.append_assoc]
    exact List.drop_left' (by simp)
  rw [poke?, if_pos (by simp), List.take_left, zeros_length, hdrop, zeros_add, List.append_assoc]

/-- `memcpy(p, bs); p += n` at the cursor of a buffer. -/
def emit (bs : List UInt8) (n : Nat) (st : List UInt8 × Nat) : Option (List UInt8 × Nat) :=
  (poke? st.1 st.2 bs).map fun buf => (buf, st.2 + n)

/-- With the cursor behind what has been filled in and only zeros behind the cursor, `f`
    fills in `bytes`, if there is room in a buffer of `cap` bytes. -/
def Appends (cap : Nat) (f : List UInt8 × Nat → Option (List UInt8 × Nat)) (bytes : List UInt8) : Prop :=
  ∀ done room, done.length + (bytes.length + room) = cap →
    f (done ++ zeros (bytes.length + room), done.length) = some (done ++ bytes ++ zeros room, (done ++ bytes).length)

namespace Appends

variable {cap : Nat} {f g : List UInt8 × Nat → Option (List UInt8 × Nat)} {bs cs : List UInt8}

theorem nothing : Appends cap some [] := fun done room _ => by simp

theorem skip (n : Nat) : Appends cap (fun st => some (st.1, st.2 + n)) (zeros n) := fun done room _ => by
  simp [zeros_add]

theorem emit {n : Nat} (h : bs.length ≤ n) : Appends cap (emit bs n) (bs ++ zeros (n - bs.length)) := fun done room _ => by
  have hroom : (bs ++ zeros (n - bs.length)).length + room = bs.length + ((n - bs.length) + room) := by
    simp [Nat.add_assoc]
  have hdrop : (done ++ zeros (bs.length + (n - bs.length + room))).drop (done.length + bs.length) =
      zeros (n - bs.length) ++ zeros room := by
    rw [zeros_add, zeros_add, ← List.append_assoc]
    exact List.drop_left' (by simp)
  rw [hroom, Wire.emit, poke?, if_pos (by simp), hdrop, List.take_left]
  simp
  omega

theorem exact (bs : List UInt8) : Appends cap (Wire.emit bs bs.length) bs := by
  have h : Appends cap (Wire.emit bs bs.length) (bs ++ zeros (bs.length - bs.length)) := Appends.emit (Nat.le_refl _)
  simpa using h

theorem word (v : UInt32) : Appends cap (Wire.emit (le32 v) 4) (le32 v) := Appends.exact (le32 v)

theorem bind (hf : Appends cap f bs) (hg : Appends cap g cs) : Appends cap (fun st => (f st).bind g) (bs ++ cs) := by
  intro done room hcap
  rw [List.length_append] at hcap
  have h := hf done (cs.length + room) (by omega)
  have h' := hg (done ++ bs) room (by simp; omega)
  show (f _).bind g = _
  rw [List.length_append, Nat.add_assoc, h, Option.bind_some, h', List.append_assoc done]

theorem foldlM {α : Type} {step : List UInt8 × Nat → α → Option (List UInt8 × Nat)} {bytes : α → List UInt8} :
    ∀ {l : List α}, (∀ a ∈ l, Appends cap (step · a) (bytes a)) → Appends cap (fun st => l.foldlM step st) (l.flatMap bytes) := by
  intro l
  induction l with
  | nil => intro _; exact nothing
  | cons a l ih =>
    intro h
    simp only [List.foldlM_cons, List.flatMap_cons]
    exact (h a List.mem_cons_self).bind (ih fun b hb => h b (List.mem_cons_of_mem _ hb))

/-- A zeroed buffer. -/
theorem start (h : Appends cap f bs) (hcap : bs.length ≤ cap) : f (zeros cap, 0) = some (bs ++ zeros (cap - bs.length), bs.length) := by
  have := h [] (cap - bs.length) (by simp; omega)
  simpa [Nat.add_sub_cancel' hcap] using this

end Appends

/-! ## Readers -/

/-- Where `field` lies at the cursor, `p` reads `a` and moves past it. -/
def Reads {α : Type} (p : List UInt8 → Nat → Option (α × Nat)) (field : List UInt8) (a : α) : Prop :=
  ∀ bytes off rest, At bytes off (field ++ rest) → p bytes off = some (a, off + field.length)

/-- So many of them, one behind the other. -/
def many {α : Type} (p : Nat → Option (α × Nat)) : Nat → Nat → Option (List α × Nat)
  | 0, off => some ([], off)
  | n + 1, off => do
    let r ← p off
    let rs ← many p n r.2
    some (r.1 :: rs.1, rs.2)

theorem Reads.many {α : Type} {p : List UInt8 → Nat → Option (α × Nat)} {field : α → List UInt8} :
    ∀ {l : List α}, (∀ a ∈ l, Reads p (field a) a) → Reads (fun bytes => many (p bytes) l.length) (l.flatMap field) l := by
  intro l
  induction l with
  | nil => intro _ bytes off rest _; rfl
  | cons a l ih =>
    intro h bytes off rest hat
    rw [List.flatMap_cons, List.append_assoc] at hat
    have ha := h a List.mem_cons_self bytes off _ hat
    have hl := ih (fun b hb => h b (List.mem_cons_of_mem _ hb)) bytes _ rest hat.skip
    simp only at hl
    simp [Wire.many, ha, hl, Nat.add_assoc]

end Panthera.Lib.Wire
