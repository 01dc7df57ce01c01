/-
  Panthera.Configd.Server — configd's store and its notification sessions
  (`panthera_configd.c`: `g_store`, `notify_session_*`, `notify_store_key_changed`,
  `notify_store_keys_changed`, `set_value_for_key`, `remove_value_for_key`,
  `notify_launchd_network_up`, `copy_mutable_string_array`).

  The store maps keys to property lists. A session watches keys and patterns and collects the
  keys that were notified since it last asked. Requests are served one at a time.

  `written` is not in the source: it records the key of every write to the store, oldest first.

  What a request does to the store, to the pending changes and to launchd is one `effect`: writes,
  notifications, and whether the network is announced. Effects compose (`effect_effect`), and
  every operation here is one.
-/

import Panthera.Lib.Updates
import Panthera.Configd.Keys

namespace Panthera.Configd

open Lib.Updates

/-! ## Property lists -/

/-- A property list; `other` are its numbers, dates and data. -/
inductive Plist where
  | string (s : CFString)
  | boolean (b : Bool)
  | array (values : List Plist)
  | dictionary (value : CFString → Option Plist)
  | other (n : Nat)

/-- A CFDictionary, by what CFDictionaryGetValue finds. -/
abbrev Dictionary := CFString → Option Plist

def Plist.string? : Plist → Option CFString
  | .string s => some s
  | _ => none

def Plist.dictionary? : Plist → Option Dictionary
  | .dictionary d => some d
  | _ => none

/-- The strings of an array; nothing but an array has any. -/
def copyStrings : Option Plist → List CFString
  | some (.array values) => values.filterMap Plist.string?
  | _ => []

/-! ## Sessions -/

abbrev Port := Nat

/-- `MACH_PORT_NULL` -/
def machPortNull : Port := 0

/-- `notify_session_t` -/
structure Session where
  port : Port
  keys : List CFString := []
  patterns : List CFString := []
  changes : List CFString := []
  ports : List Port := []
deriving DecidableEq

instance (key : CFString) (array : List CFString) : Decidable (key ∈ array) := List.instDecidableMemOfLawfulBEq key array

/-- `CFArrayAppendValue`, unless `array_contains_string`. -/
def insertString (array : List CFString) (key : CFString) : List CFString := if key ∈ array then array else array ++ [key]

/-- `notify_session_matches_key_locked` -/
def Session.matchesKey (s : Session) (key : CFString) : Bool :=
  decide (key ∈ s.keys) || s.patterns.any (stringMatchesStorePattern key)

/-- The loop body of `notify_store_key_changed`. -/
def Session.noteChange (s : Session) (key : CFString) : Session :=
  if s.matchesKey key then { s with changes := insertString s.changes key } else s

/-- `notify_session_find_locked` -/
def findSession (port : Port) (sessions : List Session) : Option Session := sessions.find? (·.port = port)

/-- Changes the session that `notify_session_find_locked` finds. -/
def changeSession (port : Port) (f : Session → Session) : List Session → List Session
  | [] => []
  | s :: sessions => if s.port = port then f s :: sessions else s :: changeSession port f sessions

/-! ## The server -/

structure Server where
  store : Dictionary
  /-- `g_instance` -/
  inst : Nat := 0
  /-- `g_network_state_published` -/
  published : Bool := false
  /-- `g_launchd_network_up_notified` -/
  notified : Bool := false
  /-- The signals sent to launchd. -/
  signals : Nat := 0
  /-- `g_notify_sessions` -/
  sessions : List Session := []
  /-- The notification ports that were sent a message, oldest first. -/
  sent : List Port := []
  written : List CFString := []

namespace Server

/-- `notify_session_get_locked` with `create`: the sessions with one for the port. -/
def getSession (port : Port) (st : Server) : Server :=
  match findSession port st.sessions with
  | some _ => st
  | none => { st with sessions := ⟨port, [], [], [], []⟩ :: st.sessions }

def notifyStoreKeyChanged (key : CFString) (st : Server) : Server :=
  let told := st.sessions.filter (·.matchesKey key)
  { st with
    sessions := st.sessions.map (·.noteChange key)
    sent := st.sent ++ told.flatMap fun s => s.ports.filter (· ≠ machPortNull) }

def notifyStoreKeysChanged (keys : Option Plist) (st : Server) : Server :=
  (copyStrings keys).foldl (fun st key => st.notifyStoreKeyChanged key) st

def setOwnedValueForKeyLocked (key : CFString) (value : Plist) (st : Server) : Server :=
  { st with store := Function.update st.store key (some value), inst := st.inst + 1, written := st.written ++ [key] }

def removeValueForKeyLocked (key : CFString) (st : Server) : Server :=
  { st with store := Function.update st.store key none, inst := st.inst + 1, written := st.written ++ [key] }

def setValueForKey (key : CFString) (value : Plist) (st : Server) : Server :=
  (st.setOwnedValueForKeyLocked key value).notifyStoreKeyChanged key

def removeValueForKey (key : CFString) (st : Server) : Server :=
  (st.removeValueForKeyLocked key).notifyStoreKeyChanged key

def notifyLaunchdNetworkUp (st : Server) : Server :=
  if st.notified then st else { st with notified := true, signals := st.signals + 1 }

end Server

/-! ## Reading back -/

@[simp] theorem mem_insertString {array : List CFString} {key k : CFString} : k ∈ insertString array key ↔ k ∈ array ∨ k = key := by
  unfold insertString
  split
  · constructor
    · exact .inl
    · rintro (h | rfl) <;> assumption
  · simp

section

variable {port p : Port} {f : Session → Session} {sessions : List Session}

theorem findSession_map (hf : ∀ s, (f s).port = s.port) : findSession port (sessions.map f) = (findSession port sessions).map f := by
  simp only [findSession, List.find?_map, Function.comp_def, hf]

theorem findSession_changeSession (hf : ∀ s, (f s).port = s.port) :
    findSession port (changeSession p f sessions) = (findSession port sessions).map fun s => if port = p then f s else s := by
  induction sessions with
  | nil => rfl
  | cons s sessions ih =>
    unfold changeSession
    simp only [findSession, List.find?_cons] at ih ⊢
    by_cases hs : s.port = p
    · by_cases hp : port = p
      · simp [hs, hp, hf]
      · have hne : ¬ p = port := fun h => hp h.symm
        simp [hs, hf, hp, hne]
    · by_cases hp : s.port = port
      · have hne : ¬ port = p := fun h => hs (hp.trans h)
        simp [hp, hne]
      · simp [hs, hp, ih]

end

/-! ## Notifications of several keys -/

namespace Session

def noteChanges (keys : List CFString) (s : Session) : Session := keys.foldl noteChange s

variable (s : Session) (key k : CFString) (keys keys' : List CFString)

theorem noteChange_eq : ∃ changes, s.noteChange key = { s with changes := changes } := by
  unfold noteChange
  split
  · exact ⟨_, rfl⟩
  · exact ⟨_, rfl⟩

theorem mem_noteChange : k ∈ (s.noteChange key).changes ↔ k ∈ s.changes ∨ k = key ∧ s.matchesKey key := by
  unfold noteChange
  split <;> simp_all

/-- Notifications change nothing but the pending changes. -/
theorem noteChanges_eq : ∃ changes, noteChanges keys s = { s with changes := changes } := by
  induction keys generalizing s with
  | nil => exact ⟨_, rfl⟩
  | cons key keys ih =>
    obtain ⟨changes, hone⟩ := s.noteChange_eq key
    obtain ⟨changes', hrest⟩ := ih (s.noteChange key)
    exact ⟨changes', hrest.trans (by rw [hone])⟩

@[simp] theorem noteChanges_port : (noteChanges keys s).port = s.port := by
  obtain ⟨_, h⟩ := s.noteChanges_eq keys
  rw [h]

@[simp] theorem noteChanges_ports : (noteChanges keys s).ports = s.ports := by
  obtain ⟨_, h⟩ := s.noteChanges_eq keys
  rw [h]

@[simp] theorem noteChanges_matchesKey : (noteChanges keys s).matchesKey k = s.matchesKey k := by
  obtain ⟨_, h⟩ := s.noteChanges_eq keys
  rw [h]
  rfl

theorem noteChanges_append : noteChanges (keys ++ keys') s = noteChanges keys' (noteChanges keys s) := List.foldl_append

theorem mem_noteChanges : k ∈ (noteChanges keys s).changes ↔ k ∈ s.changes ∨ k ∈ keys ∧ s.matchesKey k := by
  induction keys generalizing s with
  | nil => simp [noteChanges]
  | cons key keys ih =>
    have hmatches : (s.noteChange key).matchesKey k = s.matchesKey k := noteChanges_matchesKey s k [key]
    rw [noteChanges, List.foldl_cons, ← noteChanges, ih, mem_noteChange, hmatches, List.mem_cons]
    by_cases hk : k = key
    · subst hk
      tauto
    · simp [hk]

/-- A notification changes nothing exactly if what the session watches of it is pending already. -/
theorem noteChanges_eq_self_iff : noteChanges keys s = s ↔ ∀ k ∈ keys, s.matchesKey k → k ∈ s.changes := by
  constructor
  · intro h k hk hm
    rw [← h]
    exact (mem_noteChanges s k keys).mpr (.inr ⟨hk, hm⟩)
  · intro h
    induction keys with
    | nil => rfl
    | cons key keys ih =>
      have hone : s.noteChange key = s := by
        unfold noteChange
        split
        · rename_i hm
          rw [insertString, if_pos (h key List.mem_cons_self hm)]
        · rfl
      rw [noteChanges, List.foldl_cons, hone]
      exact ih fun k hk => h k (List.mem_cons_of_mem key hk)

end Session

/-! ## Effects -/

namespace Server

/-- The messages for the notification of a key. -/
def wakes (sessions : List Session) (key : CFString) : List Port :=
  (sessions.filter (·.matchesKey key)).flatMap fun s => s.ports.filter (· ≠ machPortNull)

/-- Writes to the store, notified keys, and whether launchd is told that the network is up. -/
def effect (writes : List (CFString × Option Plist)) (notes : List CFString) (up : Bool) (st : Server) : Server :=
  { st with
    store := writeAll writes st.store
    inst := st.inst + writes.length
    written := st.written ++ writes.map Prod.fst
    notified := st.notified || up
    signals := st.signals + (up && !st.notified).toNat
    sessions := st.sessions.map (Session.noteChanges notes)
    sent := st.sent ++ notes.flatMap (wakes st.sessions) }

variable (st : Server)

theorem wakes_noteChanges (sessions : List Session) (notes : List CFString) :
    wakes (sessions.map (Session.noteChanges notes)) = wakes sessions := by
  funext key
  simp [wakes, List.filter_map, List.flatMap_map, Function.comp_def]

theorem effect_effect (ws ws' : List (CFString × Option Plist)) (ns ns' : List CFString) (up up' : Bool) :
    (st.effect ws ns up).effect ws' ns' up' = st.effect (ws ++ ws') (ns ++ ns') (up || up') := by
  simp only [effect, writeAll_append, List.length_append, List.map_append, List.append_assoc, List.flatMap_append, Bool.or_assoc,
    List.map_map, Function.comp_def, ← Session.noteChanges_append, wakes_noteChanges, Nat.add_assoc, Server.mk.injEq, true_and, and_true]
  cases up <;> cases up' <;> cases st.notified <;> rfl

theorem effect_nil : st.effect [] [] false = st := by
  simp [effect, show Session.noteChanges [] = id from rfl]

theorem notifyStoreKeyChanged_eq (key : CFString) : st.notifyStoreKeyChanged key = st.effect [] [key] false := by
  simp [notifyStoreKeyChanged, effect, wakes, Session.noteChanges]

theorem setValueForKey_eq (key : CFString) (value : Plist) : st.setValueForKey key value = st.effect [(key, some value)] [key] false := by
  rw [setValueForKey, notifyStoreKeyChanged_eq]
  simp [setOwnedValueForKeyLocked, effect]

theorem removeValueForKey_eq (key : CFString) : st.removeValueForKey key = st.effect [(key, none)] [key] false := by
  rw [removeValueForKey, notifyStoreKeyChanged_eq]
  simp [removeValueForKeyLocked, effect]

theorem notifyLaunchdNetworkUp_eq : st.notifyLaunchdNetworkUp = st.effect [] [] true := by
  have hnotes : Session.noteChanges [] = id := rfl
  unfold notifyLaunchdNetworkUp
  split
  · rename_i h
    obtain ⟨_, _, _, _, _, _, _, _⟩ := st
    cases h
    simp [effect, hnotes]
  · rename_i h
    simp [effect, hnotes, h]

/-- A loop whose turns are effects. -/
theorem foldl_effect {α : Type*} {f : Server → α → Server} (ws : α → List (CFString × Option Plist)) (ns : α → List CFString)
    (up : α → Bool) (l : List α) (h : ∀ a ∈ l, ∀ st, f st a = st.effect (ws a) (ns a) (up a)) :
    l.foldl f st = st.effect (l.flatMap ws) (l.flatMap ns) (l.any up) := by
  induction l generalizing st with
  | nil => exact st.effect_nil.symm
  | cons a l ih =>
    rw [List.foldl_cons, h a List.mem_cons_self, ih _ fun b hb => h b (List.mem_cons_of_mem a hb), effect_effect]
    rfl

theorem notifyStoreKeysChanged_eq (keys : Option Plist) : st.notifyStoreKeysChanged keys = st.effect [] (copyStrings keys) false := by
  rw [notifyStoreKeysChanged, foldl_effect st (fun _ => []) (fun key => [key]) (fun _ => false) _ fun key _ st => st.notifyStoreKeyChanged_eq key,
    List.flatMap_eq_nil_iff.mpr fun _ _ => rfl, List.flatMap_singleton', List.any_eq_false.mpr fun _ _ => Bool.false_ne_true]

end Server

end Panthera.Configd
