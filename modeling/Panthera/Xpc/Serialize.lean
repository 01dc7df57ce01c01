/-
  Panthera.Xpc.Serialize — dictionaries as flat buffers
  (`libxpc_impl.c`: `xpc_serialize_dict`,
  `xpc_deserialize_dict`).

  The writer sizes the buffer in one pass and fills it in another. Both cut lengths to 32
  bits and round them up to words; an entry of a type that the format does not have is
  passed over. The reader goes by the lengths it finds and stops where one leads out of
  the buffer, but it takes keys and strings to be terminated and eight bytes to be there
  for a number. An access outside the buffer is a fault (`none`).

  Proved: below 2^32 bytes the two passes agree and fill in the format (`serializeDict_eq`),
  and the reader brings back every entry that has a wire type, in order
  (`dict_round_trip`).
-/

import Panthera.Lib.Pages
import Panthera.Xpc.Dict

namespace Panthera.Xpc

open Lib.Bytes Lib.Pages Lib.Wire

def wireMagic : UInt32 := 0x58504321

def wireVersion : UInt32 := 1

def pad4 (n : UInt32) : UInt32 := (n + 3) &&& ~~~(3 : UInt32)

/-- `_xpc_wire_type`: 0 for a type that is not serialized. -/
def wireType : Value → UInt32
  | .string _ => 1
  | .int64 _ => 2
  | .uint64 _ => 3
  | .double _ => 4
  | .bool _ => 5
  | .data _ => 6
  | .null => 7
  | .other _ => 0

/-! ## `xpc_serialize_dict` -/

def keyLen (key : CString) : UInt32 := UInt32.ofNat key.bytes.length + 1

def valLen : Value → UInt32
  | .string s => UInt32.ofNat s.bytes.length + 1
  | .int64 _ | .uint64 _ | .double _ => 8
  | .bool _ => 1
  | .data d => UInt32.ofNat d.len
  | .null | .other _ => 0

/-- The first pass. What is added for an entry is a sum of 32-bit numbers. -/
def totalSize (d : Dict) : Nat :=
  d.entries.foldl (fun total e =>
    if wireType e.2 = 0 then total else total + (4 + 4 + pad4 (keyLen e.1) + 4 + pad4 (valLen e.2)).toNat) 16

/-- The `memcpy` of a value and `p += _xpc_pad4(val_len)`. That of data takes `data.len`
    bytes from `data.ptr`, be there a buffer or not. -/
def writeValue (v : Value) (st : List UInt8 × Nat) : Option (List UInt8 × Nat) :=
  let n := (pad4 (valLen v)).toNat
  match v with
  | .string s => emit ((s.bytes ++ [0]).take (valLen v).toNat) n st
  | .int64 v => emit (le64 v.toUInt64) n st
  | .uint64 v => emit (le64 v) n st
  | .double bits => emit (le64 bits) n st
  | .bool b => emit [if b then 1 else 0] n st
  | .data d => if 0 < d.len then d.ptr.bind fun b => emit b n st else some (st.1, st.2 + n)
  | .null | .other _ => some (st.1, st.2 + n)

/-- A turn of the second loop; the state is the buffer and the cursor `p`. -/
def writeEntry (st : List UInt8 × Nat) (e : CString × Value) : Option (List UInt8 × Nat) :=
  if wireType e.2 = 0 then some st
  else do
    let st ← emit (le32 (wireType e.2)) 4 st
    let st ← emit (le32 (pad4 (keyLen e.1))) 4 st
    let st ← emit ((e.1.bytes ++ [0]).take (keyLen e.1).toNat) (pad4 (keyLen e.1)).toNat st
    let st ← emit (le32 (valLen e.2)) 4 st
    writeValue e.2 st

/-- The buffer that is returned; `none` if an access is outside what it should be in. -/
def serializeDict (d : Dict) : Option (List UInt8) :=
  let total := totalSize d
  let entryCount := UInt32.ofNat (d.entries.countP fun e => wireType e.2 ≠ 0)
  let filled := do
    let st ← emit (le32 wireMagic) 4 (zeros total, 0)
    let st ← emit (le32 wireVersion) 4 st
    let st ← emit (le32 entryCount) 4 st
    let st ← emit (le32 (UInt32.ofNat (total - 16))) 4 st
    d.entries.foldlM writeEntry st
  filled.map (·.1)

/-! ## `xpc_deserialize_dict` -/

/-- The `switch` on the type: the value at `p` is set for the key at `k`. -/
def readValue (buf : List UInt8) (d : Dict) (type : UInt32) (k p : Nat) (valLen : UInt32) : Option Dict :=
  if type = 1 then do
    let key ← cstringAt? buf k
    let s ← cstringAt? buf p
    some (d.setString key (some s))
  else if type = 2 then do
    let v ← read64? buf p
    let key ← cstringAt? buf k
    some (d.setInt64 key v.toInt64)
  else if type = 3 then do
    let v ← read64? buf p
    let key ← cstringAt? buf k
    some (d.setUint64 key v)
  else if type = 4 then do
    let v ← read64? buf p
    let key ← cstringAt? buf k
    some (d.setDouble key v)
  else if type = 5 then do
    let b ← buf[p]?
    let key ← cstringAt? buf k
    some (d.setBool key (b ≠ 0))
  else if type = 6 then do
    let b ← sliceAt? buf p valLen.toNat
    let key ← cstringAt? buf k
    some (d.setData key (.buffer b))
  else if type = 7 then do
    let key ← cstringAt? buf k
    some (d.setValue key (some .null))
  else some d

def readEntries (buf : List UInt8) : Nat → Nat → Dict → Option Dict
  | 0, _, d => some d
  | count + 1, p, d =>
    if buf.length < p + 12 then some d
    else do
      let type ← read32? buf p
      let keyPlen ← read32? buf (p + 4)
      let k := p + 4 + 4
      if buf.length < k + keyPlen.toNat then some d
      else
        let p := k + keyPlen.toNat
        if buf.length < p + 4 then some d
        else do
          let valLen ← read32? buf p
          let p := p + 4
          if buf.length < p + (pad4 valLen).toNat then some d
          else do
            let d ← readValue buf d type k p valLen
            readEntries buf count (p + (pad4 valLen).toNat) d

/-- `none` if a read is outside the buffer, `some none` for NULL. -/
def deserializeDict (buf : List UInt8) : Option (Option Dict) :=
  if buf.length < 16 then some none
  else do
    let magic ← read32? buf 0
    let version ← read32? buf 4
    let count ← read32? buf 8
    if magic ≠ wireMagic ∨ version ≠ wireVersion then some none
    else (readEntries buf count.toNat 16 .empty).map some

/-! ## The format -/

def valueBytes : Value → List UInt8
  | .string s => s.bytes ++ [0]
  | .int64 v => le64 v.toUInt64
  | .uint64 v => le64 v
  | .double bits => le64 bits
  | .bool b => [if b then 1 else 0]
  | .data d => d.ptr.getD []
  | .null | .other _ => []

def entryBytes (e : CString × Value) : List UInt8 :=
  le32 (wireType e.2) ++ (le32 (UInt32.ofNat (roundUp4 (e.1.bytes.length + 1))) ++ (padded (e.1.bytes ++ [0]) ++
    (le32 (UInt32.ofNat (valueBytes e.2).length) ++ padded (valueBytes e.2))))

/-- The entries that are serialized. -/
def supported (d : Dict) : List (CString × Value) := d.entries.filter (wireType ·.2 ≠ 0)

/-- What the dictionary takes on the wire. -/
def wireSize (d : Dict) : Nat := 16 + ((supported d).map fun e => (entryBytes e).length).sum

def dictBytes (d : Dict) : List UInt8 :=
  le32 wireMagic ++ (le32 wireVersion ++ (le32 (UInt32.ofNat (supported d).length) ++
    (le32 (UInt32.ofNat (wireSize d - 16)) ++ (supported d).flatMap entryBytes)))

/-- Data has a buffer, if it is not empty. -/
def Value.Backed : Value → Prop
  | .data d => d.ptr.isSome ∨ d.len = 0
  | _ => True

instance : DecidablePred Value.Backed
  | .data d => inferInstanceAs (Decidable (d.ptr.isSome ∨ d.len = 0))
  | .null | .bool _ | .int64 _ | .uint64 _ | .double _ | .string _ | .other _ => .isTrue trivial

theorem entryBytes_length (e : CString × Value) :
    (entryBytes e).length = 12 + roundUp4 (e.1.bytes.length + 1) + roundUp4 (valueBytes e.2).length := by
  simp [entryBytes]
  omega

theorem dictBytes_length (d : Dict) : (dictBytes d).length = wireSize d := by
  simp only [dictBytes, List.length_append, le32_length, List.length_flatMap, wireSize]
  omega

/-! ## Lengths -/

theorem pad4_exact {n : UInt32} (h : n.toNat + 3 < 2 ^ 32) : (pad4 n).toNat = roundUp4 n.toNat := toNat_roundUp4 h

theorem keyLen_exact {key : CString} (h : key.bytes.length + 1 < 2 ^ 32) : (keyLen key).toNat = key.bytes.length + 1 := by
  rw [keyLen, UInt32.toNat_add, UInt32.toNat_ofNat', show (1 : UInt32).toNat = 1 from rfl]
  omega

theorem data_length {d : Data} (hb : (Value.data d).Backed) : (d.ptr.getD []).length = d.len := by
  rcases d with ⟨len, _ | b, hsized⟩
  · simpa [Value.Backed, eq_comm] using hb
  · exact (hsized b rfl).1

theorem valLen_exact {v : Value} (hb : v.Backed) (h : (valueBytes v).length < 2 ^ 32) :
    (valLen v).toNat = (valueBytes v).length := by
  cases v with
  | string s =>
    simp only [valueBytes, List.length_append, List.length_cons, List.length_nil] at h ⊢
    rw [valLen, UInt32.toNat_add, UInt32.toNat_ofNat', show (1 : UInt32).toNat = 1 from rfl]
    omega
  | data d =>
    rw [valueBytes, data_length hb] at *
    rw [valLen, UInt32.toNat_ofNat', Nat.mod_eq_of_lt h]
  | null => rfl
  | bool b => rfl
  | int64 v => simp [valLen, valueBytes]
  | uint64 v => simp [valLen, valueBytes]
  | double bits => simp [valLen, valueBytes]
  | other tag => rfl

/-! ## Writing -/

section Entry

variable {cap : Nat} {e : CString × Value} (hb : e.2.Backed) (hfit : (entryBytes e).length < 2 ^ 32)

include hb hfit

/-- The lengths that are written for an entry, none of them cut to 32 bits. -/
theorem lengths_exact : (keyLen e.1).toNat = e.1.bytes.length + 1 ∧
    (pad4 (keyLen e.1)).toNat = roundUp4 (e.1.bytes.length + 1) ∧ (valLen e.2).toNat = (valueBytes e.2).length ∧
    (pad4 (valLen e.2)).toNat = roundUp4 (valueBytes e.2).length := by
  rw [entryBytes_length] at hfit
  have hk := le_roundUp4 (e.1.bytes.length + 1)
  have hv := le_roundUp4 (valueBytes e.2).length
  have hkey := keyLen_exact (show e.1.bytes.length + 1 < 2 ^ 32 by omega)
  have hval := valLen_exact hb (by omega)
  refine ⟨hkey, ?_, hval, ?_⟩
  · rw [pad4_exact (by omega), hkey]
  · rw [pad4_exact (by omega), hval]

theorem writeValue_appends : Appends cap (writeValue e.2) (padded (valueBytes e.2)) := by
  obtain ⟨-, -, hval, hpad⟩ := lengths_exact hb hfit
  have hle := le_roundUp4 (valueBytes e.2).length
  rw [← hpad] at hle
  have hemit : Appends cap (emit (valueBytes e.2) (pad4 (valLen e.2)).toNat) (padded (valueBytes e.2)) := by
    rw [padded, ← hpad]
    exact Appends.emit hle
  have hskip : valueBytes e.2 = [] →
      Appends cap (fun st => some (st.1, st.2 + (pad4 (valLen e.2)).toNat)) (padded (valueBytes e.2)) := by
    intro hnil
    rw [padded, ← hpad, hnil]
    exact Appends.skip _
  unfold writeValue
  cases hv : e.2 with
  | string s =>
    rw [hv] at hval hemit
    have hall : (s.bytes ++ [0]).take (valLen (.string s)).toNat = s.bytes ++ [0] := List.take_of_length_le (by rw [hval]; rfl)
    simp only [hall]
    exact hemit
  | data d =>
    rw [hv] at hb hemit hskip
    rcases d with ⟨len, _ | b, hsized⟩
    · obtain rfl : len = 0 := by simpa [Value.Backed] using hb
      exact hskip rfl
    · simp only [(hsized b rfl).2, if_true]
      exact hemit
  | null =>
    rw [hv] at hskip
    exact hskip rfl
  | other tag =>
    rw [hv] at hskip
    exact hskip rfl
  | bool b => rwa [hv] at hemit
  | int64 v => rwa [hv] at hemit
  | uint64 v => rwa [hv] at hemit
  | double bits => rwa [hv] at hemit

theorem writeEntry_appends (hsup : wireType e.2 ≠ 0) : Appends cap (writeEntry · e) (entryBytes e) := by
  obtain ⟨hkey, hkpad, hval, -⟩ := lengths_exact hb hfit
  have hkeyField : Appends cap (emit ((e.1.bytes ++ [0]).take (keyLen e.1).toNat) (pad4 (keyLen e.1)).toNat)
      (padded (e.1.bytes ++ [0])) := by
    have hall : (e.1.bytes ++ [0]).take (keyLen e.1).toNat = e.1.bytes ++ [0] := List.take_of_length_le (by simp [hkey])
    have hlen : (e.1.bytes ++ [0]).length = e.1.bytes.length + 1 := by simp
    rw [hall, padded, hlen, ← hkpad, ← hlen]
    exact Appends.emit (by rw [hkpad, hlen]; exact le_roundUp4 _)
  have hplen : pad4 (keyLen e.1) = UInt32.ofNat (roundUp4 (e.1.bytes.length + 1)) := by rw [← hkpad, UInt32.ofNat_toNat]
  have hvlen : valLen e.2 = UInt32.ofNat (valueBytes e.2).length := by rw [← hval, UInt32.ofNat_toNat]
  unfold writeEntry entryBytes
  simp only [hsup, if_false, ← hplen, ← hvlen]
  exact (Appends.word _).bind ((Appends.word _).bind (hkeyField.bind ((Appends.word _).bind (writeValue_appends hb hfit))))

end Entry

section Dict

variable {d : Dict} (hb : ∀ e ∈ supported d, e.2.Backed) (hsize : wireSize d < 2 ^ 32)

theorem supported_eq_flatMap (bytes : CString × Value → List UInt8) : ∀ l : List (CString × Value),
    (l.filter (wireType ·.2 ≠ 0)).flatMap bytes = l.flatMap fun e => if wireType e.2 = 0 then [] else bytes e := by
  intro l
  induction l with
  | nil => rfl
  | cons e l ih =>
    by_cases h : wireType e.2 = 0
    · rw [List.filter_cons_of_neg (by simpa using h), ih, List.flatMap_cons, if_pos h, List.nil_append]
    · rw [List.filter_cons_of_pos (by simpa using h), List.flatMap_cons, ih, List.flatMap_cons, if_neg h]

theorem entry_fits (hsize : wireSize d < 2 ^ 32) {e : CString × Value} (he : e ∈ supported d) : (entryBytes e).length < 2 ^ 32 := by
  have := List.single_le_sum (fun _ _ => Nat.zero_le _) _ (List.mem_map_of_mem (f := fun e => (entryBytes e).length) he)
  unfold wireSize at hsize
  omega

include hb hsize

theorem totalSize_exact : totalSize d = wireSize d := by
  have hfold : ∀ (l : List (CString × Value)), (∀ e ∈ l, wireType e.2 ≠ 0 → e ∈ supported d) → ∀ n,
      l.foldl (fun total e => if wireType e.2 = 0 then total
        else total + (4 + 4 + pad4 (keyLen e.1) + 4 + pad4 (valLen e.2)).toNat) n =
        n + ((l.filter (wireType ·.2 ≠ 0)).map fun e => (entryBytes e).length).sum := by
    intro l
    induction l with
    | nil => intro _ n; rfl
    | cons e l ih =>
      intro hl n
      have hrest := ih fun e' he' => hl e' (List.mem_cons_of_mem _ he')
      by_cases h : wireType e.2 = 0
      · rw [List.foldl_cons, if_pos h, hrest, List.filter_cons_of_neg (by simpa using h)]
      · have he := hl e List.mem_cons_self h
        have hfit := entry_fits hsize he
        obtain ⟨-, hkpad, -, hvpad⟩ := lengths_exact (hb e he) hfit
        rw [entryBytes_length] at hfit
        have hentry : (4 + 4 + pad4 (keyLen e.1) + 4 + pad4 (valLen e.2)).toNat = (entryBytes e).length := by
          rw [entryBytes_length, UInt32.toNat_add, UInt32.toNat_add, UInt32.toNat_add, hkpad, hvpad,
            show (4 + 4 : UInt32).toNat = 8 from rfl, show (4 : UInt32).toNat = 4 from rfl]
          omega
        rw [List.foldl_cons, if_neg h, hrest, List.filter_cons_of_pos (by simpa using h), hentry, List.map_cons, List.sum_cons]
        omega
  exact hfold d.entries (fun e he h => List.mem_filter.mpr ⟨he, by simpa using h⟩) 16

theorem serializeDict_eq : serializeDict d = some (dictBytes d) := by
  have hentries : Appends (wireSize d) (fun st => d.entries.foldlM writeEntry st) ((supported d).flatMap entryBytes) := by
    rw [supported, supported_eq_flatMap]
    refine Appends.foldlM fun e he => ?_
    split
    · rename_i h
      simp only [writeEntry, h, if_true]
      exact Appends.nothing
    · rename_i h
      have hsup : e ∈ supported d := List.mem_filter.mpr ⟨he, by simpa using h⟩
      exact writeEntry_appends (hb e hsup) (entry_fits hsize hsup) h
  have hall : Appends (wireSize d) _ (dictBytes d) := (Appends.word wireMagic).bind ((Appends.word wireVersion).bind
    ((Appends.word (UInt32.ofNat (supported d).length)).bind ((Appends.word (UInt32.ofNat (wireSize d - 16))).bind hentries)))
  have hcount : (d.entries.countP fun e => wireType e.2 ≠ 0) = (supported d).length := List.countP_eq_length_filter
  have hwhole := hall.start (Nat.le_of_eq (dictBytes_length d))
  rw [dictBytes_length, Nat.sub_self, zeros_zero, List.append_nil] at hwhole
  unfold serializeDict
  rw [totalSize_exact hb hsize, hcount]
  exact congrArg (Option.map (·.1)) hwhole

end Dict

/-! ## Reading -/

section Read

variable {buf rest : List UInt8} {e : CString × Value} (hb : e.2.Backed) (hfit : (entryBytes e).length < 2 ^ 32) (hsup : wireType e.2 ≠ 0)
include hb hfit hsup

/-- What is set for a serialized value is the value. -/
theorem readValue_eq {k p : Nat}
    {keyRest valRest : List UInt8} (hk : At buf k (e.1.bytes ++ 0 :: keyRest)) (hp : At buf p (valueBytes e.2 ++ valRest)) (d : Dict) :
    readValue buf d (wireType e.2) k p (valLen e.2) = some (d.setValue e.1 (some e.2)) := by
  have hkey := hk.cstring
  unfold readValue
  cases hv : e.2 with
  | string s =>
    rw [hv, valueBytes, List.append_assoc] at hp
    have hs : cstringAt? buf p = some s := hp.cstring
    simp [wireType, hkey, hs, Dict.setString]
  | int64 v =>
    rw [hv] at hp
    have hread : read64? buf p = some v.toUInt64 := hp.read64
    simp [wireType, hkey, hread, Dict.setInt64]
  | uint64 v =>
    rw [hv] at hp
    have hread : read64? buf p = some v := hp.read64
    simp [wireType, hkey, hread, Dict.setUint64]
  | double bits =>
    rw [hv] at hp
    have hread : read64? buf p = some bits := hp.read64
    simp [wireType, hkey, hread, Dict.setDouble]
  | bool b =>
    rw [hv] at hp
    have hread : buf[p]? = some (if b then 1 else 0) := hp.getElem?
    cases b <;> simp [wireType, hkey, hread, Dict.setBool]
  | data d =>
    obtain ⟨-, -, hval, -⟩ := lengths_exact hb hfit
    rw [hv] at hp hval hb
    have hslice : sliceAt? buf p (valLen (.data d)).toNat = some (d.ptr.getD []) := by
      rw [hval]
      exact hp.slice
    rcases d with ⟨len, _ | b, hsized⟩
    · obtain rfl : len = 0 := by simpa [Value.Backed] using hb
      simp [wireType, hkey, hslice, Dict.setData, dataCreate]
    · obtain ⟨rfl, hpos⟩ := hsized b rfl
      simp [wireType, hkey, hslice, Dict.setData, dataCreate, dif_pos hpos]
  | null => simp [wireType, hkey]
  | other tag =>
    rw [hv] at hsup
    exact absurd rfl hsup

/-- A turn of the loop. -/
theorem readEntries_succ {p : Nat}
    (h : At buf p (entryBytes e ++ rest)) (n : Nat) (d : Dict) :
    readEntries buf (n + 1) p d = readEntries buf n (p + (entryBytes e).length) (d.setValue e.1 (some e.2)) := by
  obtain ⟨-, hkpad, hval, hvpad⟩ := lengths_exact hb hfit
  have hvlen : valLen e.2 = UInt32.ofNat (valueBytes e.2).length := by rw [← hval, UInt32.ofNat_toNat]
  have hplen : pad4 (keyLen e.1) = UInt32.ofNat (roundUp4 (e.1.bytes.length + 1)) := by rw [← hkpad, UInt32.ofNat_toNat]
  have hlen := h.length
  rw [List.length_append, entryBytes_length] at hlen
  rw [entryBytes_length]
  simp only [entryBytes, List.append_assoc, ← hvlen, ← hplen] at h
  have hk := h.skip
  have hkey := hk.skip
  have hv := hkey.skip
  have hvalue := hv.skip
  simp only [le32_length, padded_length, List.length_append, List.length_cons, List.length_nil] at hk hkey hv hvalue
  obtain ⟨keyRest, hk0⟩ : ∃ r, At buf (p + 4 + 4) (e.1.bytes ++ 0 :: r) := ⟨_, by simpa [padded] using hkey⟩
  obtain ⟨valRest, hv0⟩ : ∃ r, At buf (p + 4 + 4 + roundUp4 (e.1.bytes.length + 1) + 4) (valueBytes e.2 ++ r) :=
    ⟨_, by simpa [padded] using hvalue⟩
  rw [readEntries, if_neg (by omega)]
  simp only [h.read32, hk.read32, hkpad, Option.bind_eq_bind, Option.bind_some]
  rw [if_neg (by omega), if_neg (by omega)]
  simp only [hv.read32, hvpad, Option.bind_some]
  rw [if_neg (by omega), readValue_eq hb hfit hsup hk0 hv0, Option.bind_some]
  congr 1
  omega

omit hb hfit hsup

theorem readEntries_eq : ∀ {es : List (CString × Value)} {p : Nat} {d : Dict},
    (∀ e ∈ es, e.2.Backed ∧ (entryBytes e).length < 2 ^ 32 ∧ wireType e.2 ≠ 0) → At buf p (es.flatMap entryBytes) →
    (d.entries.map (·.1) ++ es.map (·.1)).Nodup →
    ∃ d', readEntries buf es.length p d = some d' ∧ d'.entries = d.entries ++ es := by
  intro es
  induction es with
  | nil => intro p d _ _ _; exact ⟨d, rfl, by simp⟩
  | cons e es ih =>
    intro p d hes hat hnodup
    obtain ⟨hb, hfit, hsup⟩ := hes e List.mem_cons_self
    rw [List.flatMap_cons] at hat
    have hfresh : e.1 ∉ d.entries.map (·.1) := fun hmem =>
      (List.nodup_append.mp hnodup).2.2 _ hmem _ (by simp) rfl
    have hset := entries_setValue_fresh (v := e.2) hfresh
    obtain ⟨d', hread, hentries⟩ := ih (d := d.setValue e.1 (some e.2)) (fun e' he' => hes e' (List.mem_cons_of_mem _ he'))
      hat.skip (by simpa [hset] using hnodup)
    refine ⟨d', ?_, by simp [hentries, hset]⟩
    rw [List.length_cons, readEntries_succ hb hfit hsup hat, hread]

end Read

theorem supported_length_le (d : Dict) : (supported d).length ≤ wireSize d := by
  have h := List.card_nsmul_le_sum ((supported d).map fun e => (entryBytes e).length) 1 fun n hn => by
    obtain ⟨e, -, rfl⟩ := List.mem_map.mp hn
    rw [entryBytes_length]
    omega
  simp only [List.length_map, smul_eq_mul, Nat.mul_one] at h
  exact Nat.le_trans h (Nat.le_add_left _ _)

/-- Whatever else is in the dictionary, what has a wire type comes back. -/
theorem deserializeDict_serializeDict {d : Dict} (hb : ∀ e ∈ supported d, e.2.Backed) (hsize : wireSize d < 2 ^ 32) :
    ∃ buf d', serializeDict d = some buf ∧ deserializeDict buf = some (some d') ∧ d'.entries = supported d := by
  have hlen := dictBytes_length d
  have hmagic : At (dictBytes d) 0 (le32 wireMagic ++ _) := At.start _
  have hversion := hmagic.skip
  have hcount := hversion.skip
  have hentries := hcount.skip.skip
  simp only [le32_length, Nat.zero_add] at hversion hcount hentries
  have hn : (UInt32.ofNat (supported d).length).toNat = (supported d).length := by
    have := supported_length_le d
    rw [UInt32.toNat_ofNat']
    omega
  have hnodup : ((supported d).map (·.1)).Nodup := d.keys_nodup.sublist (List.filter_sublist.map _)
  obtain ⟨d', hread, hd'⟩ := readEntries_eq (d := .empty)
    (fun e he => ⟨hb e he, entry_fits hsize he, by simpa using (List.mem_filter.mp he).2⟩) hentries (by simpa [Dict.empty] using hnodup)
  refine ⟨_, d', serializeDict_eq hb hsize, ?_, by simpa [Dict.empty] using hd'⟩
  unfold deserializeDict
  rw [if_neg (by rw [hlen, wireSize]; omega)]
  simp only [hmagic.read32, hversion.read32, hcount.read32, Option.bind_eq_bind, Option.bind_some, hn, hread]
  simp

/-! ## Built dictionaries -/

/-- The types that the format has; data with a buffer. -/
def Value.Plain (v : Value) : Prop := wireType v ≠ 0 ∧ v.Backed

instance : DecidablePred Value.Plain := fun v => inferInstanceAs (Decidable (wireType v ≠ 0 ∧ v.Backed))

/-- What a key reads as has been set by one of the calls. -/
theorem lastSet_mem (key : CString) (calls : List Call) {v : Value} (h : lastSet key calls = some v) :
    ∃ c ∈ calls, c.value = some v := by
  unfold lastSet at h
  induction calls using List.reverseRecOn with
  | nil => cases h
  | append_singleton calls c ih =>
    rw [List.foldl_append, List.foldl_cons, List.foldl_nil] at h
    split at h
    · exact ⟨c, by simp, h⟩
    · obtain ⟨c', hc', hv⟩ := ih h
      exact ⟨c', List.mem_append_left _ hc', hv⟩

/-- A dictionary that any calls have built comes back with the same value for every key. -/
theorem dict_round_trip (calls : List Call) (hplain : ∀ c ∈ calls, ∀ v ∈ c.value, v.Plain) (hsize : wireSize (run calls) < 2 ^ 32) :
    ∃ buf d', serializeDict (run calls) = some buf ∧ deserializeDict buf = some (some d') ∧
      ∀ key, d'.getValue key = (run calls).getValue key := by
  have hvalues : ∀ e ∈ (run calls).entries, e.2.Plain := by
    intro e he
    have hlast := run_getValue calls e.1 ▸ getValue_eq_some.mpr he
    obtain ⟨c, hc, hv⟩ := lastSet_mem e.1 calls hlast
    exact hplain c hc _ hv
  have hall : supported (run calls) = (run calls).entries :=
    List.filter_eq_self.mpr fun e he => by simpa using (hvalues e he).1
  obtain ⟨buf, d', hser, hdes, hentries⟩ := deserializeDict_serializeDict
    (fun e he => (hvalues e (hall ▸ he)).2) hsize
  refine ⟨buf, d', hser, hdes, fun key => ?_⟩
  rw [Dict.getValue, hentries, hall]
  rfl

/-- A key set twice and one removed from the middle. -/
def sampleCalls : List Call :=
  [.setInt64 keyA (-1), .setString ⟨[0x62, 0x63], by decide⟩ (some ⟨[0x78], by decide⟩),
    .setData ⟨[], by decide⟩ (.buffer [1, 0, 2]), .setBool keyA true,
    .setValue ⟨[0x62, 0x63], by decide⟩ none, .setDouble ⟨[0x64], by decide⟩ 0x3FF0000000000000]

theorem dict_round_trip_sample : ∃ buf d', serializeDict (run sampleCalls) = some buf ∧ deserializeDict buf = some (some d') ∧
    ∀ key, d'.getValue key = (run sampleCalls).getValue key :=
  dict_round_trip sampleCalls (by decide) (by decide)

end Panthera.Xpc
