/-
  Panthera.Xpc.Objects — XPC objects and what containers share
  (`libxpc_impl.c`: `xpc_retain`, `xpc_release`,
  `_xpc_object_destroy`, the `xpc_*_create` calls, `xpc_dictionary_set_value` and the
  typed setters, `xpc_array_append_value` and the `xpc_array_set_*` calls).

  Objects are the cells of a reference-counted heap. The singletons (booleans, null and the
  errors) are outside of it: they are never counted. Of a container's arrays the model
  has the slots below `count`, NULL or not; what lies behind them is overwritten before it
  is read. A call may not return (`Stop`). A call on an object that is not there is noted by
  the heap. Allocation succeeds.

  Main result: `containers_sound`. `xpc_dictionary_create` keeps the place of an entry it
  skips but does not count it (`a_skipped_entry_leaves_a_hole`).
-/

import Panthera.Lib.Run
import Panthera.Lib.RefCount
import Panthera.Xpc.Dict

namespace Panthera.Xpc.Objects

open Lib Lib.Wire

/-! ## Objects -/

inductive Singleton where
  | boolTrue
  | boolFalse
  | null
  | errorInterrupted
  | errorInvalid
  | errorTermination
  deriving DecidableEq, Repr

/-- A pointer that is not NULL. -/
inductive Pointer where
  | singleton (s : Singleton)
  | object (r : Nat)
  deriving DecidableEq, Repr

def Pointer.ref? : Pointer → Option Nat
  | .singleton _ => none
  | .object r => some r

/-- The slots 0 to `count - 1` of the arrays of a container. -/
structure Slots (α : Type) where
  used : List (Option α)
  capacity : Nat
  capacity_pos : 0 < capacity

namespace Slots

variable {α : Type}

/-- The constructors: entry `i` goes to slot `i`, `count` is the number of valid ones. -/
def create (entries : List (Option α)) : Slots α :=
  { used := entries.take (entries.countP Option.isSome)
    capacity := max entries.length 8
    capacity_pos := by omega }

/-- `_dict_grow`, `_array_grow`. -/
def push (s : Slots α) (a : α) : Slots α :=
  { used := s.used ++ [some a]
    capacity := if s.capacity ≤ s.used.length then s.capacity * 2 else s.capacity
    capacity_pos := by
      have := s.capacity_pos
      split <;> omega }

def set (s : Slots α) (i : Nat) (a : Option α) : Slots α := { s with used := s.used.set i a }

def remove (s : Slots α) (i : Nat) : Slots α := { s with used := swapRemove s.used i }

@[simp] theorem used_push (s : Slots α) (a : α) : (s.push a).used = s.used ++ [some a] := rfl

@[simp] theorem used_set (s : Slots α) (i : Nat) (a : Option α) : (s.set i a).used = s.used.set i a := rfl

@[simp] theorem used_remove (s : Slots α) (i : Nat) : (s.remove i).used = swapRemove s.used i := rfl

end Slots

/-- A right of the task stands for its name; `none` is `MACH_PORT_NULL`. -/
structure Connection where
  sendPort : Option Nat
  pendingMsg : Option Pointer
  eventHandler : Bool
  isActive : Bool

inductive Content where
  | value (v : Value)
  | dictionary (replyPort : Option Nat) (slots : Slots (CString × Pointer))
  | array (slots : Slots Pointer)
  | connection (c : Connection)

/-- What `_xpc_object_destroy` releases, in its order. -/
def kids : Content → List Nat
  | .value _ => []
  | .dictionary _ slots => slots.used.filterMap fun e => e.bind (·.2.ref?)
  | .array slots => slots.used.filterMap fun p => p.bind Pointer.ref?
  | .connection c => (c.pendingMsg.bind Pointer.ref?).toList

abbrev Heap := RefCount.Heap Content

/-! ## Calls -/

def retain (p : Option Pointer) (h : Heap) : Heap :=
  match p with
  | some (.object r) => h.retain r
  | _ => h

/-- Why a call does not return: `strcmp` on a NULL key, or objects that are destroyed inside
    their own destruction. -/
inductive Stop where
  | fault
  | endless
  deriving DecidableEq, Repr

def release (p : Option Pointer) (h : Heap) : Except Stop Heap :=
  match p with
  | some (.object r) =>
    match RefCount.release kids (h.next + 1) r h with
    | none => .error .endless
    | some h => .ok h
  | _ => .ok h

/-- What a call makes an object of. -/
inductive New where
  | null
  | bool (b : Bool)
  | int64 (v : Int64)
  | uint64 (v : UInt64)
  | double (bits : UInt64)
  | string (s : Option CString)
  | data (bytes : Bytes)
  | machSend
  | machRecv

/-- What the `xpc_*_create` calls return. -/
inductive Made where
  | null
  | singleton (s : Singleton)
  | object (v : Value)

def New.made : New → Made
  | .null => .singleton .null
  | .bool b => .singleton (if b then .boolTrue else .boolFalse)
  | .int64 v => .object (.int64 v)
  | .uint64 v => .object (.uint64 v)
  | .double bits => .object (.double bits)
  | .string none => .null
  | .string (some s) => .object (.string s)
  | .data bytes => .object (.data (dataCreate bytes))
  | .machSend => .object (.other .machSend)
  | .machRecv => .object (.other .machRecv)

def New.create (n : New) (h : Heap) : Option Pointer × Heap :=
  match n.made with
  | .null => (none, h)
  | .singleton s => (some (.singleton s), h)
  | .object v => (some (.object h.next), h.alloc (.value v))

/-- An entry that `xpc_dictionary_create` does not skip. -/
def validEntry : Option CString × Option Pointer → Option (CString × Pointer)
  | (some key, some value) => some (key, value)
  | _ => none

def dictionaryCreate (entries : List (Option CString × Option Pointer)) (h : Heap) : Heap :=
  let entries := entries.map validEntry
  entries.foldl (fun h e => retain (e.map (·.2)) h) (h.alloc (.dictionary none (.create entries)))

def dictionaryCreateReply (original : Option Pointer) (h : Heap) : Heap :=
  match original with
  | some (.object r) =>
    match h.content? r with
    | none => (h.touch r).alloc (.dictionary none (.create []))
    | some (.dictionary replyPort _) => h.alloc (.dictionary replyPort (.create []))
    | some _ => h.alloc (.dictionary none (.create []))
  | _ => h.alloc (.dictionary none (.create []))

def arrayCreate (objects : List (Option Pointer)) (h : Heap) : Heap :=
  objects.foldl (fun h p => retain p h) (h.alloc (.array (.create objects)))

/-- The search for a key: `strcmp` with the keys from slot 0 on. -/
def findKey (key : CString) : List (Option (CString × Pointer)) → Option (Option Nat)
  | [] => some none
  | none :: _ => none
  | some e :: l => if e.1 = key then some (some 0) else (findKey key l).map (Option.map (· + 1))

/-- `xpc_dictionary_set_value` on a dictionary. The old value is released before the slot is
    overwritten. -/
def dictionarySet (d : Nat) (replyPort : Option Nat) (slots : Slots (CString × Pointer)) (key : CString) (value : Option Pointer)
    (h : Heap) : Except Stop Heap :=
  match findKey key slots.used, value with
  | none, _ => .error .fault
  | some (some i), some v => do
    let h ← release ((slots.used[i]?.join).map (·.2)) (retain value h)
    return h.setContent d (.dictionary replyPort (slots.set i (some (key, v))))
  | some (some i), none => do
    let h ← release ((slots.used[i]?.join).map (·.2)) h
    return h.setContent d (.dictionary replyPort (slots.remove i))
  | some none, some v => .ok (retain value (h.setContent d (.dictionary replyPort (slots.push (key, v)))))
  | some none, none => .ok h

def dictionarySetValue (dict : Option Pointer) (key : Option CString) (value : Option Pointer) (h : Heap) : Except Stop Heap :=
  match dict, key with
  | some (.object d), some key =>
    match h.content? d with
    | none => .ok (h.touch d)
    | some (.dictionary replyPort slots) => dictionarySet d replyPort slots key value h
    | some _ => .ok h
  | _, _ => .ok h

/-- The typed setters. -/
def dictionarySetNew (dict : Option Pointer) (key : Option CString) (n : New) (h : Heap) : Except Stop Heap :=
  dictionarySetValue dict key (n.create h).1 (n.create h).2 >>= release (n.create h).1

def dictionaryGetValue (dict : Option Pointer) (key : Option CString) (h : Heap) : Option (Option Pointer) :=
  match dict, key with
  | some (.object d), some key =>
    match h.content? d with
    | some (.dictionary _ slots) => (findKey key slots.used).map fun i => i.bind fun i => (slots.used[i]?.join).map (·.2)
    | _ => some none
  | _, _ => some none

def arrayAppendValue (array : Option Pointer) (value : Option Pointer) (h : Heap) : Heap :=
  match array, value with
  | some (.object a), some v =>
    match h.content? a with
    | none => h.touch a
    | some (.array slots) => retain value (h.setContent a (.array (slots.push v)))
    | some _ => h
  | _, _ => h

/-- `xpc_array_set_string` and the like: the slot takes over the reference to the new object. -/
def arraySet (array : Option Pointer) (index : Nat) (n : New) (h : Heap) : Except Stop Heap :=
  match array with
  | some (.object a) =>
    match h.content? a with
    | none => .ok (h.touch a)
    | some (.array slots) =>
      if slots.used.length ≤ index then .ok h
      else do
        let h' ← release (slots.used[index]?.join) (n.create h).2
        return h'.setContent a (.array (slots.set index (n.create h).1))
    | some _ => .ok h
  | _ => .ok h

inductive Call where
  | create (n : New)
  | dictionaryCreate (entries : List (Option CString × Option Pointer))
  | dictionaryCreateReply (original : Option Pointer)
  | arrayCreate (objects : List (Option Pointer))
  | retain (p : Option Pointer)
  | release (p : Option Pointer)
  | dictionarySetValue (dict : Option Pointer) (key : Option CString) (value : Option Pointer)
  | dictionarySetNew (dict : Option Pointer) (key : Option CString) (n : New)
  | dictionaryGetValue (dict : Option Pointer) (key : Option CString)
  | arrayAppendValue (array : Option Pointer) (value : Option Pointer)
  | arraySet (array : Option Pointer) (index : Nat) (n : New)

def Call.step (h : Heap) : Call → Except Stop Heap
  | .create n => .ok (n.create h).2
  | .dictionaryCreate entries => .ok (Objects.dictionaryCreate entries h)
  | .dictionaryCreateReply original => .ok (Objects.dictionaryCreateReply original h)
  | .arrayCreate objects => .ok (Objects.arrayCreate objects h)
  | .retain p => .ok (Objects.retain p h)
  | .release p => Objects.release p h
  | .dictionarySetValue dict key value => Objects.dictionarySetValue dict key value h
  | .dictionarySetNew dict key n => Objects.dictionarySetNew dict key n h
  | .dictionaryGetValue dict key =>
    match Objects.dictionaryGetValue dict key h with
    | none => .error .fault
    | some _ => .ok h
  | .arrayAppendValue array value => .ok (Objects.arrayAppendValue array value h)
  | .arraySet array index n => Objects.arraySet array index n h

/-- Whether every release that the call makes comes back. -/
def Call.ends (h : Heap) (c : Call) : Bool :=
  match c.step h with
  | .error .endless => false
  | _ => true

/-- The call returns a heap of which `Q` holds, if it does not stop for the one reason. -/
inductive Unless (e : Stop) (Q : Heap → Prop) : Except Stop Heap → Prop
  | stop : Unless e Q (.error e)
  | ok {h : Heap} : Q h → Unless e Q (.ok h)

section

variable {e : Stop} {Q R : Heap → Prop} {r : Except Stop Heap}

theorem Unless.bind {f : Heap → Except Stop Heap} (hr : Unless e Q r) (hf : ∀ h, Q h → Unless e R (f h)) : Unless e R (r >>= f) := by
  cases hr with
  | stop => exact .stop
  | ok hQ => exact hf _ hQ

theorem Unless.imp (hr : Unless e Q r) (h : ∀ h, Q h → R h) : Unless e R r := by
  cases hr with
  | stop => exact .stop
  | ok hQ => exact .ok (h _ hQ)

end

/-! ## Full slots -/

/-- Nothing that is skipped comes before a valid entry. -/
def ValidFirst {α : Type} (entries : List (Option α)) : Prop := entries.Pairwise fun a b => b.isSome → a.isSome

namespace Slots

variable {α : Type}

/-- No hole, and no more slots than there is room for. -/
structure Full (s : Slots α) : Prop where
  nonnull : ∀ a ∈ s.used, a.isSome
  count_le : s.used.length ≤ s.capacity

theorem used_create : ∀ {entries : List (Option α)}, ValidFirst entries →
    (Slots.create entries).used = (entries.filterMap id).map some := by
  intro entries
  induction entries with
  | nil => exact fun _ => rfl
  | cons e l ih =>
    intro h
    obtain ⟨hfirst, hrest⟩ := List.pairwise_cons.mp h
    cases e with
    | none =>
      -- behind an entry that is skipped there is no valid one
      have hnone : ∀ a ∈ l, a = none := fun a ha => Option.not_isSome_iff_eq_none.mp fun hs => by simpa using hfirst a ha hs
      have hcount : l.countP Option.isSome = 0 := List.countP_eq_zero.mpr fun a ha => by simp [hnone a ha]
      simpa [Slots.create, hcount] using hnone
    | some a =>
      have := ih hrest
      simp only [Slots.create] at this
      simp [Slots.create, List.countP_cons_of_pos, this]

theorem full_create {entries : List (Option α)} (h : ValidFirst entries) : (Slots.create entries).Full := by
  constructor
  · rw [used_create h]
    simp
  · exact Nat.le_trans (List.length_take_le' _ _) (Nat.le_max_left _ _)

variable {s : Slots α}

theorem Full.push (h : s.Full) (a : α) : (s.push a).Full := by
  have hpos := s.capacity_pos
  have hle := h.count_le
  refine ⟨fun b hb => ?_, ?_⟩
  · rcases List.mem_append.mp hb with hb | hb
    · exact h.nonnull b hb
    · simp [List.mem_singleton.mp hb]
  · simp only [Slots.push, List.length_append, List.length_cons, List.length_nil]
    split <;> omega

theorem Full.set (h : s.Full) (i : Nat) (a : α) : (s.set i (some a)).Full := by
  refine ⟨fun b hb => ?_, by simpa [Slots.set] using h.count_le⟩
  rcases List.mem_or_eq_of_mem_set hb with hb | rfl
  · exact h.nonnull b hb
  · rfl

theorem Full.remove (h : s.Full) {i : Nat} {a : Option α} (hi : s.used[i]? = some a) : (s.remove i).Full :=
  ⟨fun b hb => h.nonnull b ((swapRemove_perm hi).mem_iff.mp (List.mem_cons_of_mem _ hb)),
    Nat.le_trans (swapRemove_length hi) h.count_le⟩

end Slots

/-! ## Sound containers -/

/-- What was last stored in a dictionary and not removed since. -/
abbrev Stored := CString → Option Pointer

/-- The entries of a dictionary without a hole. -/
def Holds (slots : Slots (CString × Pointer)) (stored : Stored) (entries : List (CString × Pointer)) : Prop :=
  slots.used = entries.map some ∧ (entries.map (·.1)).Nodup ∧ ∀ e, e ∈ entries ↔ stored e.1 = some e.2

/-- Of arrays `P` is asked. -/
def Content.Sound (P : Slots Pointer → Prop) (stored : Stored) : Content → Prop
  | .value _ => True
  | .dictionary _ slots => slots.Full ∧ ∃ entries, Holds slots stored entries
  | .array slots => P slots
  | .connection _ => True

theorem findKey_map_some (key : CString) (entries : List (CString × Pointer)) :
    findKey key (entries.map some) = some (entries.findIdx? (·.1 = key)) := by
  induction entries with
  | nil => rfl
  | cons e l ih =>
    rw [List.map_cons, findKey, List.findIdx?_cons]
    by_cases he : e.1 = key
    · simp [he]
    · simp [he, ih]

section Slot

variable {slots : Slots (CString × Pointer)} {stored : Stored} {entries : List (CString × Pointer)} {key : CString} {i : Nat}

theorem swapRemove_map {α β : Type} (f : α → β) (l : List α) (i : Nat) : swapRemove (l.map f) i = (swapRemove l i).map f := by
  simp only [swapRemove, List.getLast?_map, ← List.map_dropLast, List.length_map]
  cases l.getLast? with
  | none => rfl
  | some a =>
    simp only [Option.map_some]
    split
    · rw [List.map_set]
    · rfl

variable (h : Holds slots stored entries)
include h

theorem Holds.set {old : Pointer} (hi : entries[i]? = some (key, old)) (v : Pointer) :
    Holds (slots.set i (some (key, v))) (Function.update stored key (some v)) (entries.set i (key, v)) := by
  obtain ⟨hused, hnodup, hmem⟩ := h
  refine ⟨by rw [Slots.set, hused, List.map_set], keys_set hi ▸ hnodup, fun e => ?_⟩
  rw [mem_set hnodup hi, hmem]
  by_cases hkey : e.1 = key <;> simp [hkey, eq_comm]

theorem Holds.remove {old : Pointer} (hi : entries[i]? = some (key, old)) :
    Holds (slots.remove i) (Function.update stored key none) (swapRemove entries i) := by
  obtain ⟨hused, hnodup, hmem⟩ := h
  refine ⟨by rw [Slots.remove, hused, swapRemove_map], keys_swapRemove hnodup hi, fun e => ?_⟩
  rw [mem_swapRemove hnodup hi, hmem]
  by_cases hkey : e.1 = key <;> simp [hkey]

theorem Holds.push (hfresh : key ∉ entries.map (·.1)) (v : Pointer) :
    Holds (slots.push (key, v)) (Function.update stored key (some v)) (entries ++ [(key, v)]) := by
  obtain ⟨hused, hnodup, hmem⟩ := h
  refine ⟨by simp [Slots.push, hused], keys_append hnodup hfresh v, fun e => ?_⟩
  rw [mem_append hfresh, hmem]
  by_cases hkey : e.1 = key <;> simp [hkey, eq_comm]

theorem Holds.keep (hfresh : key ∉ entries.map (·.1)) :
    Holds slots (Function.update stored key none) entries := by
  obtain ⟨hused, hnodup, hmem⟩ := h
  refine ⟨hused, hnodup, fun e => ?_⟩
  have hne : e ∈ entries → e.1 ≠ key := fun he hkey => hfresh (hkey ▸ List.mem_map_of_mem he)
  rw [Function.update_apply]
  split
  · rename_i hkey
    exact ⟨fun he => absurd hkey (hne he), fun he => by cases he⟩
  · exact hmem e

end Slot

/-! ## What calls leave -/

/-- The heap, and for every dictionary what was last stored in it. -/
structure World where
  heap : Heap
  stored : Nat → Stored

def World.empty : World := ⟨.empty, fun _ _ => none⟩

/-- The last entry for a key. -/
def lastEntry (entries : List (CString × Pointer)) : Stored := fun key => (entries.reverse.find? (·.1 = key)).map (·.2)

def store (dict : Option Pointer) (key : Option CString) (value : Option Pointer) (stored : Nat → Stored) : Nat → Stored :=
  match dict, key with
  | some (.object d), some key => Function.update stored d (Function.update (stored d) key value)
  | _, _ => stored

def Call.stores (h : Heap) (stored : Nat → Stored) : Call → Nat → Stored
  | .dictionaryCreate entries => Function.update stored h.next (lastEntry (entries.filterMap validEntry))
  | .dictionaryCreateReply _ => Function.update stored h.next fun _ => none
  | .dictionarySetValue dict key value => store dict key value stored
  | .dictionarySetNew dict key n => store dict key (n.create h).1 stored
  | _ => stored

def World.step (w : World) (c : Call) : Option World := (c.step w.heap).toOption.map fun h => ⟨h, c.stores w.heap w.stored⟩

/-- Every live container has no hole and fits its capacity, and a dictionary reads as what was
    last stored. -/
structure World.Sound (w : World) : Prop where
  dictionary : ∀ d replyPort slots, w.heap.content? d = some (.dictionary replyPort slots) →
    slots.Full ∧ ((slots.used.filterMap id).map (·.1)).Nodup ∧
      ∀ key, dictionaryGetValue (some (.object d)) (some key) w.heap = some (w.stored d key)
  array : ∀ a slots, w.heap.content? a = some (.array slots) → slots.Full

/-- Whether no object is made. -/
def New.isNull : New → Bool
  | .string none => true
  | _ => false

/-- The constructors are given their valid entries first and under different keys; no slot of
    an array is overwritten by a string that is not there. -/
def Call.Ordered (w : World) : Call → Prop
  | .dictionaryCreate entries => ValidFirst (entries.map validEntry) ∧ ((entries.filterMap validEntry).map (·.1)).Nodup
  | .arrayCreate objects => ValidFirst objects
  | .arraySet (some (.object a)) index n =>
    match w.heap.content? a with
    | some (.array slots) => n.isNull → slots.used.length ≤ index
    | _ => True
  | _ => True

def Inv (P : Slots Pointer → Prop) (h : Heap) (stored : Nat → Stored) : Prop :=
  ∀ r x, h.content? r = some x → x.Sound P (stored r)

/-- The constructor of dictionaries is given what it needs, and `P` is kept of arrays. -/
def Call.Keeps (P : Slots Pointer → Prop) (w : World) : Call → Prop
  | .dictionaryCreate entries => ValidFirst (entries.map validEntry) ∧ ((entries.filterMap validEntry).map (·.1)).Nodup
  | .arrayCreate objects => P (.create objects)
  | .arrayAppendValue _ value => ∀ v ∈ value, ∀ slots, P slots → P (slots.push v)
  | .arraySet (some (.object a)) index n => ∀ slots, w.heap.content? a = some (.array slots) → index < slots.used.length → P slots →
    P (slots.set index (n.create w.heap).1)
  | _ => True

section

open RefCount

variable {P : Slots Pointer → Prop} {h h' : Heap} {stored : Nat → Stored} {d : Nat} {x : Content} {s : Stored}

@[simp] theorem content?_retain (p : Option Pointer) (h : Heap) (o : Nat) : (retain p h).content? o = h.content? o := by
  unfold retain
  split
  · exact RefCount.content?_retain o
  · rfl

theorem retain_frame (p : Option Pointer) (h : Heap) : Frame h (retain p h) := by
  unfold retain
  split
  · rename_i r
    rw [Heap.retain]
    split
    · exact .touch h r
    · rename_i c hc
      exact frame_count hc _
  · exact .refl h

theorem release_frame (p : Option Pointer) (h : Heap) : Unless .endless (Frame h) (release p h) := by
  unfold release
  split
  · split
    · exact .stop
    · rename_i h' hrelease
      exact .ok (RefCount.release_frame kids _ _ h h' hrelease)
  · exact .ok (.refl h)

section Step

variable (hi : Inv P h stored)
include hi

theorem Inv.frame (hf : Frame h h') : Inv P h' stored := fun r x hx => hi r x (hf.content r x hx)

theorem Inv.alloc (hx : x.Sound P s) : Inv P (h.alloc x) (Function.update stored h.next s) := by
  intro r y hy
  rcases content?_alloc hy with ⟨rfl, rfl⟩ | ⟨hr, hy⟩
  · rw [Function.update_self]
    exact hx
  · rw [Function.update_of_ne hr]
    exact hi r y hy

theorem Inv.setContent (hx : x.Sound P s) : Inv P (h.setContent d x) (Function.update stored d s) := by
  intro r y hy
  rcases content?_setContent hy with ⟨rfl, rfl⟩ | ⟨hr, hy⟩
  · rw [Function.update_self]
    exact hx
  · rw [Function.update_of_ne hr]
    exact hi r y hy

/-- Of what is not a dictionary nothing is said to be stored. -/
theorem Inv.irrelevant (hd : ∀ p slots, h.content? d ≠ some (.dictionary p slots)) (s : Stored) :
    Inv P h (Function.update stored d s) := by
  intro r y hy
  by_cases hr : r = d
  · subst hr
    have hsound := hi r y hy
    cases y with
    | dictionary p slots => exact absurd hy (hd p slots)
    | value v => trivial
    | array slots => exact hsound
    | connection c => trivial
  · rw [Function.update_of_ne hr]
    exact hi r y hy

theorem Inv.create (n : New) : Inv P (n.create h).2 stored := by
  rw [New.create]
  split
  · exact hi
  · exact hi
  · rename_i v _
    have := hi.alloc (x := .value v) (s := stored h.next) trivial
    rwa [Function.update_eq_self] at this

variable {replyPort : Option Nat} {slots : Slots (CString × Pointer)}

theorem dictionarySet_inv (hd : h.content? d = some (.dictionary replyPort slots)) (key : CString) (value : Option Pointer) :
    Unless .endless (Inv P · (Function.update stored d (Function.update (stored d) key value))) (dictionarySet d replyPort slots key value h) := by
  obtain ⟨hfull, entries, hholds⟩ := hi d _ hd
  unfold dictionarySet
  rw [hholds.1, findKey_map_some]
  cases hfind : entries.findIdx? (·.1 = key) with
  | some i =>
    obtain ⟨old, hold⟩ := entry_of_findIdx hfind
    cases value with
    | some v =>
      refine (release_frame _ _).bind fun h' hframe => .ok (Inv.setContent ((hi.frame (retain_frame _ h)).frame hframe) ?_)
      exact ⟨hfull.set i _, _, hholds.set hold v⟩
    | none =>
      refine (release_frame _ _).bind fun h' hframe => .ok (Inv.setContent (hi.frame hframe) ?_)
      have hslot : slots.used[i]? = some (some (key, old)) := by rw [hholds.1, List.getElem?_map, hold]; rfl
      exact ⟨hfull.remove hslot, _, hholds.remove hold⟩
  | none =>
    have hfresh := fresh_of_findIdx hfind
    cases value with
    | some v =>
      refine .ok ((Inv.setContent hi ?_).frame (retain_frame _ _))
      exact ⟨hfull.push _, _, hholds.push hfresh v⟩
    | none =>
      refine .ok fun r y hy => ?_
      by_cases hr : r = d
      · subst hr
        obtain rfl : y = .dictionary replyPort slots := Option.some.inj (hy.symm.trans hd)
        rw [Function.update_self]
        exact ⟨hfull, entries, hholds.keep hfresh⟩
      · rw [Function.update_of_ne hr]
        exact hi r y hy

theorem dictionarySetValue_inv (dict : Option Pointer) (key : Option CString) (value : Option Pointer) :
    Unless .endless (Inv P · (store dict key value stored)) (dictionarySetValue dict key value h) := by
  unfold dictionarySetValue store
  split
  · rename_i d key
    split
    · rename_i hd
      exact .ok ((hi.frame (.touch h d)).irrelevant (fun p slots he => by simp [Heap.content?] at hd he; simp [hd] at he) _)
    · rename_i replyPort slots hd
      exact dictionarySet_inv hi hd key value
    · rename_i y hnot hd
      exact .ok (hi.irrelevant (fun p slots he => hnot p slots (Option.some.inj (hd.symm.trans he))) _)
  · exact .ok hi

theorem Inv.foldl_retain {α : Type} {f : α → Option Pointer} (l : List α) :
    Inv P (l.foldl (fun h a => retain (f a) h) h) stored := by
  have hturn : ∀ (g : Heap) (a : α), Inv P g stored → Inv P (retain (f a) g) stored := fun g a hg => hg.frame (retain_frame (f a) g)
  exact Run.foldl_inv hturn l hi

theorem dictionaryCreate_inv {entries : List (Option CString × Option Pointer)}
    (hfirst : ValidFirst (entries.map validEntry)) (hkeys : ((entries.filterMap validEntry).map (·.1)).Nodup) :
    Inv P (dictionaryCreate entries h) (Function.update stored h.next (lastEntry (entries.filterMap validEntry))) := by
  refine Inv.foldl_retain (hi.alloc ?_) _
  refine ⟨Slots.full_create hfirst, entries.filterMap validEntry, ?_, hkeys, fun e => ?_⟩
  · rw [Slots.used_create hfirst, List.filterMap_map]
    rfl
  · have hreverse : ((entries.filterMap validEntry).reverse.map (·.1)).Nodup := by
      rwa [List.map_reverse, List.nodup_reverse]
    rw [lastEntry, find_eq_some hreverse, List.mem_reverse]

theorem dictionaryCreateReply_inv (original : Option Pointer) :
    Inv P (dictionaryCreateReply original h) (Function.update stored h.next fun _ => none) := by
  have hempty : ∀ p, (Content.dictionary p (.create [])).Sound P fun _ => none :=
    fun p => ⟨Slots.full_create List.Pairwise.nil, [], rfl, List.nodup_nil, by simp⟩
  unfold dictionaryCreateReply
  split
  · rename_i r
    split
    · exact (hi.frame (.touch h r)).alloc (hempty _)
    · exact hi.alloc (hempty _)
    · exact hi.alloc (hempty _)
  · exact hi.alloc (hempty _)

theorem arraySet_inv {index : Nat} {n : New} {a : Nat}
    (hn : ∀ slots, h.content? a = some (.array slots) → index < slots.used.length → P slots → P (slots.set index (n.create h).1)) :
    Unless .endless (Inv P · stored) (arraySet (some (.object a)) index n h) := by
  unfold arraySet
  simp only
  split
  · exact .ok (hi.frame (.touch h a))
  · rename_i slots ha
    split
    · exact .ok hi
    · rename_i hlt
      refine (release_frame _ _).bind fun h' hframe => .ok ?_
      have hset := ((hi.create n).frame hframe).setContent (d := a) (x := .array (slots.set index (n.create h).1))
        (s := stored a) (hn slots ha (Nat.lt_of_not_le hlt) (hi a _ ha))
      rwa [Function.update_eq_self] at hset
  · exact .ok hi

theorem arrayAppendValue_inv (array : Option Pointer) {value : Option Pointer}
    (hpush : ∀ v ∈ value, ∀ slots, P slots → P (slots.push v)) : Inv P (arrayAppendValue array value h) stored := by
  unfold arrayAppendValue
  split
  · rename_i a v
    split
    · exact hi.frame (.touch h a)
    · rename_i slots ha
      have hset := hi.setContent (d := a) (x := .array (slots.push v)) (s := stored a) (hpush v rfl slots (hi a _ ha))
      rw [Function.update_eq_self] at hset
      exact hset.frame (retain_frame _ _)
    · exact hi
  · exact hi

theorem dictionaryGetValue_eq (hd : h.content? d = some (.dictionary replyPort slots)) (key : CString) :
    dictionaryGetValue (some (.object d)) (some key) h = some (stored d key) := by
  obtain ⟨-, entries, hused, hnodup, hmem⟩ := hi d _ hd
  simp only [dictionaryGetValue, hd, hused, findKey_map_some, Option.map_some, Option.some.injEq]
  cases hfind : entries.findIdx? (·.1 = key) with
  | none =>
    have hfresh := fresh_of_findIdx hfind
    cases hs : stored d key with
    | none => rfl
    | some v => exact absurd (List.mem_map_of_mem ((hmem (key, v)).mpr hs)) hfresh
  | some i =>
    obtain ⟨v, hv⟩ := entry_of_findIdx hfind
    have hs : stored d key = some v := (hmem (key, v)).mp (List.mem_of_getElem? hv)
    simp [hv, hs]

theorem dictionaryGetValue_exists (dict : Option Pointer) (key : Option CString) :
    ∃ v, dictionaryGetValue dict key h = some v := by
  unfold dictionaryGetValue
  split
  · rename_i d key
    split
    · rename_i replyPort slots hd
      have := dictionaryGetValue_eq hi hd key
      simp only [dictionaryGetValue, hd] at this
      exact ⟨_, this⟩
    · exact ⟨_, rfl⟩
  · exact ⟨_, rfl⟩

end Step

theorem step_inv {w : World} (hi : Inv P w.heap w.stored) (c : Call) (hc : c.Keeps P w) :
    Unless .endless (Inv P · (c.stores w.heap w.stored)) (c.step w.heap) := by
  cases c with
  | create n => exact .ok (hi.create n)
  | dictionaryCreate entries => exact .ok (dictionaryCreate_inv hi hc.1 hc.2)
  | dictionaryCreateReply original => exact .ok (dictionaryCreateReply_inv hi original)
  | arrayCreate objects =>
    have halloc := hi.alloc (x := .array (.create objects)) (s := w.stored w.heap.next) hc
    rw [Function.update_eq_self] at halloc
    exact .ok (halloc.foldl_retain _)
  | retain p => exact .ok (hi.frame (retain_frame p _))
  | release p => exact (release_frame p w.heap).imp fun h hframe => hi.frame hframe
  | dictionarySetValue dict key value => exact dictionarySetValue_inv hi dict key value
  | dictionarySetNew dict key n =>
    refine (dictionarySetValue_inv (hi.create n) dict key (n.create w.heap).1).bind fun h hi' => ?_
    exact (release_frame (n.create w.heap).1 h).imp fun h' hframe => hi'.frame hframe
  | dictionaryGetValue dict key =>
    obtain ⟨v, hv⟩ := dictionaryGetValue_exists hi dict key
    rw [Call.step, hv]
    exact .ok hi
  | arrayAppendValue array value => exact .ok (arrayAppendValue_inv hi array hc)
  | arraySet array index n =>
    rcases array with _ | _ | a
    · exact .ok hi
    · exact .ok hi
    · exact arraySet_inv hi hc

theorem Inv.sound {w : World} (hi : Inv Slots.Full w.heap w.stored) : w.Sound := by
  constructor
  · intro d replyPort slots hd
    obtain ⟨hfull, entries, hused, hnodup, -⟩ := hi d _ hd
    refine ⟨hfull, ?_, dictionaryGetValue_eq hi hd⟩
    simpa [hused] using hnodup
  · exact fun a slots ha => hi a _ ha

theorem New.exists_pointer {n : New} (hn : n.isNull = false) (h : Heap) : ∃ v, (n.create h).1 = some v := by
  rw [New.create]
  cases n with
  | string s =>
    cases s with
    | none => cases hn
    | some s => exact ⟨_, rfl⟩
  | _ => exact ⟨_, rfl⟩

theorem Call.Ordered.keeps {w : World} {c : Call} (hc : c.Ordered w) : c.Keeps Slots.Full w := by
  cases c with
  | dictionaryCreate entries => exact hc
  | arrayCreate objects => exact Slots.full_create hc
  | arrayAppendValue array value => exact fun v _ slots hfull => hfull.push v
  | arraySet array index n =>
    rcases array with _ | _ | a
    · trivial
    · trivial
    · intro slots ha hlt hfull
      simp only [Call.Ordered, ha] at hc
      have hnull : n.isNull = false := Bool.eq_false_iff.mpr fun hn => absurd (hc hn) (Nat.not_le_of_lt hlt)
      obtain ⟨v, hv⟩ := New.exists_pointer hnull w.heap
      rw [hv]
      exact hfull.set index v
  | _ => trivial

end

/-- After every part of a sequence of calls the containers are sound, if every call of it is `Ordered`
    and its releases come back. -/
theorem containers_sound (calls : List Call)
    (hordered : Run.Guarded World.step (fun w c => c.Ordered w ∧ c.ends w.heap = true) .empty calls) (n : Nat) :
    ∃ w, (calls.take n).foldlM World.step .empty = some w ∧ w.Sound := by
  have hempty : Inv Slots.Full World.empty.heap World.empty.stored := fun r x hx => by cases hx
  have hstep : ∀ (w : World) (c : Call), Inv Slots.Full w.heap w.stored → c.Ordered w ∧ c.ends w.heap = true →
      ∃ w', w.step c = some w' ∧ Inv Slots.Full w'.heap w'.stored := by
    intro w c hi hc
    have hinv := step_inv hi c hc.1.keeps
    have hends := hc.2
    rw [World.step]
    rw [Call.ends] at hends
    generalize c.step w.heap = result at hinv hends
    cases hinv with
    | stop => cases hends
    | ok hi' => exact ⟨_, rfl, hi'⟩
  obtain ⟨w, hrun, hi⟩ := Run.Guarded.reaches hstep n calls .empty hempty hordered
  exact ⟨w, hrun, hi.sound⟩

instance (w : World) : ∀ c : Call, Decidable (c.Ordered w)
  | .dictionaryCreate entries => inferInstanceAs (Decidable (List.Pairwise _ (entries.map validEntry) ∧ _))
  | .arrayCreate objects => inferInstanceAs (Decidable (List.Pairwise _ objects))
  | .arraySet (some (.object a)) index n =>
    match h : w.heap.content? a with
    | some (.array slots) => decidable_of_iff (n.isNull → slots.used.length ≤ index) (by simp only [Call.Ordered, h])
    | some (.value _) | some (.dictionary _ _) | some (.connection _) | none => .isTrue (by simp only [Call.Ordered, h])
  | .create _ | .dictionaryCreateReply _ | .retain _ | .release _ | .dictionarySetValue .. | .dictionarySetNew ..
  | .dictionaryGetValue .. | .arrayAppendValue .. | .arraySet none .. | .arraySet (some (.singleton _)) .. => .isTrue trivial

def keyB : CString := ⟨[0x62], by decide⟩

/-- A dictionary made of one entry, changed, put in an array, and emptied. -/
def sampleCalls : List Call :=
  [.dictionaryCreate [(some keyA, some (.singleton .null)), (none, some (.singleton .null))],
    .dictionarySetNew (some (.object 0)) (some keyB) (.uint64 7), .arrayCreate [some (.object 0), some (.object 1)],
    .arraySet (some (.object 2)) 1 (.string (some keyA)), .arraySet (some (.object 2)) 2 (.string none),
    .dictionarySetValue (some (.object 0)) (some keyA) none, .dictionaryGetValue (some (.object 0)) (some keyB)]

theorem containers_sound_sample : ∃ w, (sampleCalls.take 7).foldlM World.step .empty = some w ∧ w.Sound :=
  containers_sound sampleCalls (by decide) 7

def Unsound (calls : List Call) : Prop := ∃ w, calls.foldlM World.step .empty = some w ∧ ¬ w.Sound

/-- An entry that is skipped keeps its slot and is not counted; a key that comes twice gets two
    slots, and the first is read; a string that is not there overwrites a slot with NULL. -/
theorem a_skipped_entry_leaves_a_hole :
    Unsound [.dictionaryCreate [(none, some (.singleton .null)), (some keyA, some (.singleton .null))]] ∧
    Unsound [.dictionaryCreate [(some keyA, some (.singleton .null)), (some keyA, some (.singleton .boolTrue))]] ∧
    Unsound [.arrayCreate [some (.singleton .null)], .arraySet (some (.object 0)) 0 (.string none)] := by
  refine ⟨⟨_, rfl, fun h => ?_⟩, ⟨_, rfl, fun h => ?_⟩, ⟨_, rfl, fun h => ?_⟩⟩
  · have hget := (h.dictionary 0 none (.create [none, some (keyA, .singleton .null)]) rfl).2.2 keyA
    cases hget
  · have hget := (h.dictionary 0 none (.create [some (keyA, .singleton .null), some (keyA, .singleton .boolTrue)]) rfl).2.1
    exact absurd hget (by decide)
  · have hfull := (h.array 0 ((Slots.create [some (.singleton .null)]).set 0 none) rfl).nonnull none List.mem_cons_self
    cases hfull

end Panthera.Xpc.Objects
