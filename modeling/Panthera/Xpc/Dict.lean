/-
  Panthera.Xpc.Dict — XPC dictionaries (`libxpc_impl.c`:
  `xpc_dictionary_create`, `xpc_dictionary_set_value` and the `xpc_dictionary_set_*`
  calls, `xpc_dictionary_get_value`).

  A dictionary is a pair of arrays that grow by doubling. A key that is set again keeps
  its place, one that is removed is overwritten by the last entry. Objects are values
  here: none of these types can be changed after it is created, and a dictionary retains
  what it holds. Allocation succeeds.

  Proved: after any sequence of calls a key reads as what was last set for it
  (`run_getValue`), so where removals have moved the entries does not matter.
-/

import Panthera.Lib.Wire

namespace Panthera.Xpc

open Lib.Wire

/-! ## Objects -/

/-- The types that the wire format does not have. -/
inductive OtherTag where
  | dictionary
  | array
  | fd
  | machSend
  | machRecv
  | connection
  | error
  deriving DecidableEq, Repr

/-- `data.len` and what `data.ptr` points at: `xpc_data_create` leaves the pointer NULL
    for no bytes. -/
structure Data where
  len : Nat
  ptr : Option (List UInt8)
  sized : ∀ b ∈ ptr, b.length = len ∧ 0 < len
  deriving DecidableEq

/-- A double is the 64 bits of it. -/
inductive Value where
  | null
  | bool (b : Bool)
  | int64 (v : Int64)
  | uint64 (v : UInt64)
  | double (bits : UInt64)
  | string (s : CString)
  | data (d : Data)
  | other (tag : OtherTag)
  deriving DecidableEq

/-- The `bytes` and `length` of a call: a pointer to so many bytes, or no pointer. -/
inductive Bytes where
  | null (length : Nat)
  | buffer (b : List UInt8)

def dataCreate : Bytes → Data
  | .null length => ⟨length, none, by simp⟩
  | .buffer b => if h : 0 < b.length then ⟨b.length, some b, by simpa using h⟩ else ⟨b.length, none, by simp⟩

/-! ## Dictionaries -/

structure Dict where
  entries : List (CString × Value)
  capacity : Nat
  capacity_pos : 0 < capacity
  count_le : entries.length ≤ capacity
  keys_nodup : (entries.map (·.1)).Nodup

/-- The last entry goes to the place of the removed one. -/
def swapRemove {α : Type} (l : List α) (i : Nat) : List α :=
  match l.getLast? with
  | none => l
  | some last => if i < l.dropLast.length then l.dropLast.set i last else l.dropLast

variable {i : Nat}

theorem swapRemove_perm {α : Type} {l : List α} {a : α} (h : l[i]? = some a) : (a :: swapRemove l i).Perm l := by
  rcases List.eq_nil_or_concat' l with rfl | ⟨l, last, rfl⟩
  · simp at h
  · simp only [swapRemove, List.getLast?_append, List.getLast?_singleton, Option.some_or, List.dropLast_concat]
    split
    · rename_i hi
      rw [List.getElem?_append_left hi] at h
      obtain ⟨-, rfl⟩ := List.getElem?_eq_some_iff.mp h
      refine ((List.set_perm_cons_eraseIdx hi last).cons _).trans ((List.Perm.swap ..).trans ?_)
      exact ((List.getElem_cons_eraseIdx_perm hi).cons last).trans (List.perm_append_singleton _ _).symm
    · rename_i hi
      have hlast : i = l.length := by
        have := (List.getElem?_eq_some_iff.mp h).1
        simp at this
        omega
      rw [hlast, List.getElem?_append_right (Nat.le_refl _)] at h
      simp at h
      exact h ▸ (List.perm_append_singleton _ _).symm

theorem swapRemove_length {α : Type} {l : List α} {a : α} (h : l[i]? = some a) : (swapRemove l i).length ≤ l.length := by
  have := (swapRemove_perm h).length_eq
  simp at this
  omega

section Entries

variable {β : Type} {entries : List (CString × β)} {key : CString}

theorem entry_of_findIdx (h : entries.findIdx? (·.1 = key) = some i) : ∃ v, entries[i]? = some (key, v) := by
  obtain ⟨hi, hkey, -⟩ := List.findIdx?_eq_some_iff_getElem.mp h
  exact ⟨entries[i].2, by rw [List.getElem?_eq_getElem hi, ← of_decide_eq_true hkey]⟩

theorem fresh_of_findIdx (h : entries.findIdx? (·.1 = key) = none) : key ∉ entries.map (·.1) := by
  intro hmem
  obtain ⟨e, he, rfl⟩ := List.mem_map.mp hmem
  simpa using List.findIdx?_eq_none_iff.mp h e he

theorem keys_set {v w : β} (h : entries[i]? = some (key, v)) : (entries.set i (key, w)).map (·.1) = entries.map (·.1) := by
  refine List.ext_getElem? fun j => ?_
  rw [List.map_set, List.getElem?_set, List.getElem?_map]
  split
  · rename_i hij
    subst hij
    rw [h, if_pos (by simpa using (List.getElem?_eq_some_iff.mp h).1)]
    rfl
  · rfl

variable {e : CString × β} {old : β}

theorem mem_append (h : key ∉ entries.map (·.1)) (v : β) :
    e ∈ entries ++ [(key, v)] ↔ if e.1 = key then e.2 = v else e ∈ entries := by
  have hne : e ∈ entries → e.1 ≠ key := fun he hkey => h (hkey ▸ List.mem_map_of_mem he)
  rw [List.mem_append, List.mem_singleton, Prod.ext_iff]
  by_cases hkey : e.1 = key
  · simp [hkey, mt hne (not_not.mpr hkey)]
  · simp [hkey]

variable (hn : (entries.map (·.1)).Nodup)

include hn

theorem keys_swapRemove (h : entries[i]? = some (key, old)) : ((swapRemove entries i).map (·.1)).Nodup :=
  (List.nodup_cons.mp (((swapRemove_perm h).map (·.1)).nodup_iff.mpr hn)).2

theorem keys_append (h : key ∉ entries.map (·.1)) (v : β) : ((entries ++ [(key, v)]).map (·.1)).Nodup := by
  simpa using List.nodup_append_comm.mp (List.nodup_cons.mpr ⟨h, hn⟩)

/-- The other entries are those with other keys. -/
theorem mem_rest {rest : List (CString × β)} (h : ((key, old) :: rest).Perm entries) : e ∈ rest ↔ e.1 ≠ key ∧ e ∈ entries := by
  have hnodup : (((key, old) :: rest).map (·.1)).Nodup := (h.map (·.1)).nodup_iff.mpr hn
  have hfresh : key ∉ rest.map (·.1) := (List.nodup_cons.mp hnodup).1
  rw [← h.mem_iff, List.mem_cons]
  constructor
  · intro he
    exact ⟨fun hkey => hfresh (hkey ▸ List.mem_map_of_mem he), .inr he⟩
  · rintro ⟨hne, rfl | he⟩
    · exact absurd rfl hne
    · exact he

theorem mem_set (h : entries[i]? = some (key, old)) (v : β) :
    e ∈ entries.set i (key, v) ↔ if e.1 = key then e.2 = v else e ∈ entries := by
  obtain ⟨hi, he⟩ := List.getElem?_eq_some_iff.mp h
  have hrest : ((key, old) :: entries.eraseIdx i).Perm entries := he ▸ List.getElem_cons_eraseIdx_perm hi
  rw [(List.set_perm_cons_eraseIdx hi (key, v)).mem_iff, List.mem_cons, mem_rest hn hrest, Prod.ext_iff]
  by_cases hkey : e.1 = key <;> simp [hkey]

theorem mem_swapRemove (h : entries[i]? = some (key, old)) :
    e ∈ swapRemove entries i ↔ e.1 ≠ key ∧ e ∈ entries := mem_rest hn (swapRemove_perm h)

theorem find_eq_some {v : β} : (entries.find? (·.1 = key)).map (·.2) = some v ↔ (key, v) ∈ entries := by
  simp only [Option.map_eq_some_iff]
  constructor
  · rintro ⟨⟨k, w⟩, hfind, rfl⟩
    obtain rfl : k = key := by simpa using List.find?_some hfind
    exact List.mem_of_find?_eq_some hfind
  · intro hmem
    obtain ⟨e, he⟩ := Option.isSome_iff_exists.mp
      (List.find?_isSome (p := fun e : CString × β => e.1 = key).mpr ⟨_, hmem, by simp⟩)
    refine ⟨e, he, ?_⟩
    have hkey : e.1 = key := by simpa using List.find?_some he
    exact congrArg Prod.snd (List.inj_on_of_nodup_map hn (List.mem_of_find?_eq_some he) hmem hkey)

end Entries

namespace Dict

def empty : Dict := ⟨[], 8, by decide, by simp, by simp⟩

/-- `xpc_dictionary_set_value`; no value removes the key. -/
def setValue (d : Dict) (key : CString) (value : Option Value) : Dict :=
  match h : d.entries.findIdx? (·.1 = key), value with
  | some i, some v =>
    { d with
      entries := d.entries.set i (key, v)
      count_le := by simpa using d.count_le
      keys_nodup := by
        obtain ⟨w, hw⟩ := entry_of_findIdx h
        exact keys_set hw ▸ d.keys_nodup }
  | some i, none =>
    { d with
      entries := swapRemove d.entries i
      count_le := by
        obtain ⟨w, hw⟩ := entry_of_findIdx h
        exact Nat.le_trans (swapRemove_length hw) d.count_le
      keys_nodup := by
        obtain ⟨w, hw⟩ := entry_of_findIdx h
        exact (List.nodup_cons.mp (((swapRemove_perm hw).map (·.1)).nodup_iff.mpr d.keys_nodup)).2 }
  | none, none => d
  | none, some v =>
    { entries := d.entries ++ [(key, v)]
      -- `_dict_grow`
      capacity := if d.capacity ≤ d.entries.length then d.capacity * 2 else d.capacity
      capacity_pos := by
        have := d.capacity_pos
        split <;> omega
      count_le := by
        have := d.count_le
        have := d.capacity_pos
        simp only [List.length_append, List.length_cons, List.length_nil]
        split <;> omega
      keys_nodup := by
        simpa using List.nodup_append_comm.mp (List.nodup_cons.mpr ⟨fresh_of_findIdx h, d.keys_nodup⟩) }

def getValue (d : Dict) (key : CString) : Option Value := (d.entries.find? (·.1 = key)).map (·.2)

def setBool (d : Dict) (key : CString) (value : Bool) : Dict := d.setValue key (some (.bool value))

def setInt64 (d : Dict) (key : CString) (value : Int64) : Dict := d.setValue key (some (.int64 value))

def setUint64 (d : Dict) (key : CString) (value : UInt64) : Dict := d.setValue key (some (.uint64 value))

def setDouble (d : Dict) (key : CString) (bits : UInt64) : Dict := d.setValue key (some (.double bits))

/-- Of no string no object is created, which `xpc_dictionary_set_value` takes for a removal. -/
def setString (d : Dict) (key : CString) (string : Option CString) : Dict := d.setValue key (string.map .string)

def setData (d : Dict) (key : CString) (bytes : Bytes) : Dict := d.setValue key (some (.data (dataCreate bytes)))

def setMachSend (d : Dict) (key : CString) : Dict := d.setValue key (some (.other .machSend))

def setMachRecv (d : Dict) (key : CString) : Dict := d.setValue key (some (.other .machRecv))

end Dict

/-! ## What a dictionary holds -/

section Map

variable {d : Dict} {key : CString}

theorem getValue_eq_some {v : Value} : d.getValue key = some v ↔ (key, v) ∈ d.entries := find_eq_some d.keys_nodup

theorem mem_setValue {value : Option Value} {e : CString × Value} :
    e ∈ (d.setValue key value).entries ↔ if e.1 = key then value = some e.2 else e ∈ d.entries := by
  unfold Dict.setValue
  split
  · rename_i i v h
    obtain ⟨old, hold⟩ := entry_of_findIdx h
    rw [mem_set d.keys_nodup hold, Option.some.injEq, eq_comm (a := v)]
  · rename_i i h
    obtain ⟨old, hold⟩ := entry_of_findIdx h
    rw [mem_swapRemove d.keys_nodup hold]
    by_cases hkey : e.1 = key <;> simp [hkey]
  · rename_i h
    have hfresh := fresh_of_findIdx h
    have hne : e ∈ d.entries → e.1 ≠ key := fun he hkey => hfresh (hkey ▸ List.mem_map_of_mem he)
    by_cases hkey : e.1 = key
    · simp [hkey, mt hne (not_not.mpr hkey)]
    · simp [hkey]
  · rename_i v h
    rw [mem_append (fresh_of_findIdx h), Option.some.injEq, eq_comm (a := v)]

theorem getValue_setValue (value : Option Value) (k : CString) :
    (d.setValue key value).getValue k = if k = key then value else d.getValue k := by
  refine Option.ext fun v => ?_
  rw [getValue_eq_some, mem_setValue]
  split
  · rfl
  · exact getValue_eq_some.symm

/-- A new key goes to the end. -/
theorem entries_setValue_fresh {v : Value} (h : key ∉ d.entries.map (·.1)) :
    (d.setValue key (some v)).entries = d.entries ++ [(key, v)] := by
  unfold Dict.setValue
  split
  · rename_i i w hfind hv
    obtain ⟨old, hold⟩ := entry_of_findIdx hfind
    exact absurd (List.mem_map_of_mem (List.mem_of_getElem? hold)) h
  · rename_i heq
    cases heq
  · rename_i heq
    cases heq
  · rename_i w hfind hv
    cases hv
    rfl

end Map

/-! ## Runs -/

/-- The calls that build a dictionary. -/
inductive Call where
  | setValue (key : CString) (value : Option Value)
  | setBool (key : CString) (value : Bool)
  | setInt64 (key : CString) (value : Int64)
  | setUint64 (key : CString) (value : UInt64)
  | setDouble (key : CString) (bits : UInt64)
  | setString (key : CString) (string : Option CString)
  | setData (key : CString) (bytes : Bytes)
  | setMachSend (key : CString)
  | setMachRecv (key : CString)

def Call.apply (d : Dict) : Call → Dict
  | .setValue key value => d.setValue key value
  | .setBool key value => d.setBool key value
  | .setInt64 key value => d.setInt64 key value
  | .setUint64 key value => d.setUint64 key value
  | .setDouble key bits => d.setDouble key bits
  | .setString key string => d.setString key string
  | .setData key bytes => d.setData key bytes
  | .setMachSend key => d.setMachSend key
  | .setMachRecv key => d.setMachRecv key

def run (calls : List Call) : Dict := calls.foldl Call.apply .empty

def Call.key : Call → CString
  | .setValue key _ | .setBool key _ | .setInt64 key _ | .setUint64 key _ | .setDouble key _ | .setString key _
  | .setData key _ | .setMachSend key | .setMachRecv key => key

/-- What the call leaves for its key. -/
def Call.value : Call → Option Value
  | .setValue _ value => value
  | .setBool _ value => some (.bool value)
  | .setInt64 _ value => some (.int64 value)
  | .setUint64 _ value => some (.uint64 value)
  | .setDouble _ bits => some (.double bits)
  | .setString _ string => string.map .string
  | .setData _ bytes => some (.data (dataCreate bytes))
  | .setMachSend _ => some (.other .machSend)
  | .setMachRecv _ => some (.other .machRecv)

/-- Every call is one of `xpc_dictionary_set_value`. -/
theorem Call.apply_eq (d : Dict) (c : Call) : c.apply d = d.setValue c.key c.value := by cases c <;> rfl

/-- What the calls left for a key: the value of the last one that names it. -/
def lastSet (key : CString) (calls : List Call) : Option Value :=
  calls.foldl (fun v c => if key = c.key then c.value else v) none

theorem foldl_getValue (key : CString) : ∀ (calls : List Call) (d : Dict),
    (calls.foldl Call.apply d).getValue key = calls.foldl (fun v c => if key = c.key then c.value else v) (d.getValue key) := by
  intro calls
  induction calls with
  | nil => intro d; rfl
  | cons c calls ih =>
    intro d
    rw [List.foldl_cons, List.foldl_cons, ih, Call.apply_eq, getValue_setValue]

theorem run_getValue (calls : List Call) (key : CString) : (run calls).getValue key = lastSet key calls :=
  foldl_getValue key calls .empty

def keyA : CString := ⟨[0x61], by decide⟩

end Panthera.Xpc
