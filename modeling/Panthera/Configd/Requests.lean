/-
  Panthera.Configd.Requests — configd's requests
  (`panthera_configd.c`: `_configopen` … `_snapshot`,
  `panthera_configd_store_set_value`, `panthera_configd_store_set_multiple`).

  An argument is what CoreFoundation decodes from it: `none` stands for what does not decode (or is
  absent, where the source does not tell these apart). The session is the port that the request
  came in on. The interface that `find_primary_interface` finds, if a request looks for one, is
  part of the call.

  Requests read, write, or are about a session's notifications. What each kind can do is said once:
  `Read.run_eq` (publish the primary interface's state, open a session), `Write.run_eq` (one effect,
  in which every key that is written is notified) and `Notify.run_eq` (change one session).
-/

import Panthera.Lib.ArraySet
import Panthera.Configd.Publish

namespace Panthera.Configd

open Lib.Updates
open Lib.ArraySet (Op)

/-- `kSCStatusOK` and the errors. -/
inductive Status where
  | ok | invalidArgument | keyExists | noKey | noStoreSession | failed
deriving DecidableEq, Repr

/-- An argument that decodes to an array. -/
def isArray : Option Plist → Bool
  | some (.array _) => true
  | _ => false

/-- An argument that decodes to something else than an array. -/
def notArray : Option Plist → Bool
  | none | some (.array _) => false
  | some _ => true

/-- Keys to set that do not decode to a dictionary (`none` are absent ones). -/
def notDictionary : Option (Option KeysToSet) → Bool
  | some none => true
  | _ => false

namespace Server

/-! ## Reading -/

/-- `session` is the port made for the session, if that succeeds. -/
def configopen (env : Env) (interface? : Option InterfaceState) (session : Option Port) (st : Server) : (Status × Port) × Server :=
  let st := st.refreshNetworkStateIfNeeded env interface?
  match session with
  | none => ((.failed, machPortNull), st)
  | some port => ((.ok, port), st.getSession port)

/-- The keys that are listed. -/
def configlist (env : Env) (interface? : Option InterfaceState) (pattern : Option CFString) (isRegex : Bool) (st : Server) :
    (Status × (CFString → Bool)) × Server :=
  let st := st.refreshNetworkStateIfNeeded env interface?
  ((.ok, fun key => (st.store key).isSome && (isRegex || stringMatchesExactOrPrefix key pattern)), st)

def configget (env : Env) (interface? : Option InterfaceState) (key : Option CFString) (st : Server) :
    (Status × Nat × Option Plist) × Server :=
  let st := st.refreshNetworkStateIfNeeded env interface?
  match key with
  | none => ((.invalidArgument, st.inst, none), st)
  | some key =>
    match st.store key with
    | none => ((.noKey, st.inst, none), st)
    | some value => ((.ok, st.inst, some value), st)

def configgetM (env : Env) (interface? : Option InterfaceState) (keys patterns : Option Plist) (st : Server) : (Status × Dictionary) × Server :=
  let st := st.refreshNetworkStateIfNeeded env interface?
  let found (key : CFString) : Bool := decide (key ∈ copyStrings keys) || (copyStrings patterns).any (stringMatchesStorePattern key)
  ((.ok, fun key => if found key || (!isArray keys && !isArray patterns) then st.store key else none), st)

/-! ## Writing -/

def configadd (key : Option CFString) (data : Option Plist) (st : Server) : (Nat × Status) × Server :=
  match key, data with
  | some key, some value =>
    if (st.store key).isSome then ((st.inst, .keyExists), st)
    else
      let st := st.setOwnedValueForKeyLocked key value
      ((st.inst, .ok), st.notifyStoreKeyChanged key)
  | _, _ => ((st.inst, .invalidArgument), st)

def configset (key : Option CFString) (data : Option Plist) (st : Server) : (Nat × Status) × Server :=
  match key, data with
  | some key, some value =>
    let st := st.setValueForKey key value
    ((st.inst, .ok), st)
  | _, _ => ((st.inst, .invalidArgument), st)

def configremove (key : Option CFString) (st : Server) : Status × Server :=
  match key with
  | none => (.invalidArgument, st)
  | some key =>
    if (st.store key).isNone then (.noKey, st)
    else (.ok, (st.removeValueForKeyLocked key).notifyStoreKeyChanged key)

/-- The request for a notification is not looked at. -/
def confignotify (_key : Option CFString) (st : Server) : Status × Server := (.ok, st)

def setAll (set : KeysToSet) (st : Server) : Server := set.entries.foldl (fun st e => st.setValueForKey e.1 e.2) st

def removeAll (keys : Option Plist) (st : Server) : Server := (copyStrings keys).foldl (fun st key => st.removeValueForKey key) st

/-- Sets the keys, if there are any, and publishes what follows from them. -/
def setKeys (set : Option KeysToSet) (st : Server) : Server :=
  match set with
  | none => st
  | some set => (st.setAll set).publishGlobalNetworkStateFromPendingSet set

def configsetM (data : Option (Option KeysToSet)) (remove notify : Option Plist) (st : Server) : Status × Server :=
  if notDictionary data then (.invalidArgument, st)
  else if notArray remove then (.invalidArgument, st)
  else if notArray notify then (.invalidArgument, st)
  else (.ok, ((st.setKeys data.join).removeAll remove).notifyStoreKeysChanged notify)

def storeSetValue (key : Option CFString) (value : Option Plist) (st : Server) : Status × Server :=
  match key, value with
  | some key, some value => (.ok, st.setValueForKey key value)
  | _, _ => (.invalidArgument, st)

/-- The keys to remove are looked at when the keys to set are set. -/
def storeSetMultiple (keysToSet : Option (Option KeysToSet)) (keysToRemove keysToNotify : Option Plist) (st : Server) : Status × Server :=
  if notDictionary keysToSet then (.invalidArgument, st)
  else
    let st := st.setKeys keysToSet.join
    if notArray keysToRemove then (.invalidArgument, st)
    else (.ok, (st.removeAll keysToRemove).notifyStoreKeysChanged keysToNotify)

/-! ## Sessions -/

def changeSessions (port : Port) (f : Session → Session) (st : Server) : Server := { st with sessions := changeSession port f st.sessions }

def notifyadd (server : Port) (key : Option CFString) (isRegex : Bool) (st : Server) : Status × Server :=
  match key with
  | none => (.invalidArgument, st)
  | some key =>
    (.ok, (st.getSession server).changeSessions server fun s =>
      if isRegex then { s with patterns := insertString s.patterns key } else { s with keys := insertString s.keys key })

/-- Removes the first occurrence. -/
def notifyremove (server : Port) (key : Option CFString) (isRegex : Bool) (st : Server) : Status × Server :=
  match key with
  | none => (.invalidArgument, st)
  | some key =>
    (.ok, st.changeSessions server fun s =>
      if isRegex then { s with patterns := s.patterns.erase key } else { s with keys := s.keys.erase key })

def notifychanges (server : Port) (st : Server) : (Status × List CFString) × Server :=
  let st := st.getSession server
  let changes := ((findSession server st.sessions).map Session.changes).getD []
  ((.ok, changes), st.changeSessions server fun s => { s with changes := [] })

def notifyviaport (server port : Port) (msgid : Int) (st : Server) : Status × Server :=
  if msgid ≠ 0 then (.invalidArgument, st)
  else
    (.ok, (st.getSession server).changeSessions server fun s =>
      if port ≠ machPortNull ∧ port ∉ s.ports then { s with ports := s.ports ++ [port] } else s)

def notifycancel (server : Port) (st : Server) : Status × Server :=
  (.ok, st.changeSessions server fun s => { s with keys := [], patterns := [], changes := [], ports := [] })

def notifyset (server : Port) (keys patterns : Option Plist) (st : Server) : Status × Server :=
  if notArray keys then (.invalidArgument, st)
  else if notArray patterns then (.invalidArgument, st)
  else
    (.ok, (st.getSession server).changeSessions server fun s =>
      { s with keys := copyStrings keys, patterns := copyStrings patterns, changes := [] })

end Server

/-! ## Calls -/

inductive Read where
  | configopen (session : Option Port)
  | configlist (pattern : Option CFString) (isRegex : Bool)
  | configget (key : Option CFString)
  | configgetM (keys patterns : Option Plist)

inductive Write where
  | configadd (key : Option CFString) (data : Option Plist)
  | configset (key : Option CFString) (data : Option Plist)
  | configremove (key : Option CFString)
  | confignotify (key : Option CFString)
  | configsetM (data : Option (Option KeysToSet)) (remove notify : Option Plist)
  | storeSetValue (key : Option CFString) (value : Option Plist)
  | storeSetMultiple (keysToSet : Option (Option KeysToSet)) (keysToRemove keysToNotify : Option Plist)

inductive Notify where
  | notifyadd (key : Option CFString) (isRegex : Bool)
  | notifyremove (key : Option CFString) (isRegex : Bool)
  | notifychanges
  | notifyviaport (port : Port) (msgid : Int)
  | notifycancel
  | notifyset (keys patterns : Option Plist)

/-- A read comes with the interface that is found if it looks for one. -/
inductive Call where
  | read (r : Read) (interface? : Option InterfaceState)
  | write (w : Write)
  | notify (server : Port) (n : Notify)

def Read.run (env : Env) (interface? : Option InterfaceState) (st : Server) : Read → Server
  | configopen session => (st.configopen env interface? session).2
  | configlist pattern isRegex => (st.configlist env interface? pattern isRegex).2
  | configget key => (st.configget env interface? key).2
  | configgetM keys patterns => (st.configgetM env interface? keys patterns).2

def Write.run (st : Server) : Write → Status × Server
  | configadd key data => ((st.configadd key data).1.2, (st.configadd key data).2)
  | configset key data => ((st.configset key data).1.2, (st.configset key data).2)
  | configremove key => st.configremove key
  | confignotify key => st.confignotify key
  | configsetM data remove notify => st.configsetM data remove notify
  | storeSetValue key value => st.storeSetValue key value
  | storeSetMultiple keysToSet keysToRemove keysToNotify => st.storeSetMultiple keysToSet keysToRemove keysToNotify

def Notify.run (server : Port) (st : Server) : Notify → Server
  | notifyadd key isRegex => (st.notifyadd server key isRegex).2
  | notifyremove key isRegex => (st.notifyremove server key isRegex).2
  | notifychanges => (st.notifychanges server).2
  | notifyviaport port msgid => (st.notifyviaport server port msgid).2
  | notifycancel => (st.notifycancel server).2
  | notifyset keys patterns => (st.notifyset server keys patterns).2

namespace Server

def step (env : Env) (st : Server) : Call → Server
  | .read r interface? => r.run env interface? st
  | .write w => (w.run st).2
  | .notify server n => n.run server st

/-- A run of calls, of any sessions. -/
def run (env : Env) (st : Server) (calls : List Call) : Server := calls.foldl (step env) st

end Server

/-! ## What writing does -/

structure Effect where
  writes : List (CFString × Option Plist) := []
  notes : List CFString := []
  up : Bool := false

/-- The entries that setting several keys sets. -/
def entriesSet (set : Option KeysToSet) (st : Server) : List (CFString × Plist) :=
  match set with
  | none => []
  | some set => set.entries ++ set.entries.flatMap (derivedEntries set (st.setAll set))

/-- One of the keys says that the network is up. -/
def announced (set : Option KeysToSet) (st : Server) : Bool :=
  match set with
  | none => false
  | some set => set.entries.any (announces set (st.setAll set))

def removals (keys : Option Plist) : List (CFString × Option Plist) := (copyStrings keys).map fun key => (key, none)

namespace Effect

def setKeys (set : Option KeysToSet) (st : Server) : Effect :=
  ⟨writesOf (entriesSet set st), (entriesSet set st).map Prod.fst, announced set st⟩

def setMultiple (set : Option KeysToSet) (remove notify : Option Plist) (st : Server) : Effect :=
  ⟨writesOf (entriesSet set st) ++ removals remove, (entriesSet set st).map Prod.fst ++ (copyStrings remove ++ copyStrings notify), announced set st⟩

def write (key : CFString) (value : Option Plist) : Effect := ⟨[(key, value)], [key], false⟩

end Effect

/-- The effect of a request that writes. -/
def Write.effect (st : Server) : Write → Effect
  | configadd (some key) (some value) => if (st.store key).isSome then {} else .write key (some value)
  | configset (some key) (some value) => .write key (some value)
  | storeSetValue (some key) (some value) => .write key (some value)
  | configremove (some key) => if (st.store key).isNone then {} else .write key none
  | configsetM data remove notify =>
    if notDictionary data || notArray remove || notArray notify then {} else .setMultiple data.join remove notify st
  | storeSetMultiple keysToSet keysToRemove keysToNotify =>
    if notDictionary keysToSet then {}
    else if notArray keysToRemove then .setKeys keysToSet.join st
    else .setMultiple keysToSet.join keysToRemove keysToNotify st
  | _ => {}

variable (set : Option KeysToSet) (env : Env) (interface? : Option InterfaceState) (st : Server)

namespace Server

variable (st : Server)

def apply (e : Effect) : Server := st.effect e.writes e.notes e.up

theorem setAll_eq (set : KeysToSet) : st.setAll set = st.effect (writesOf set.entries) (set.entries.map Prod.fst) false := by
  rw [setAll, foldl_effect st (fun e => [(e.1, some e.2)]) (fun e => [e.1]) (fun _ => false) _ fun e _ st => st.setValueForKey_eq e.1 e.2,
    List.any_eq_false.mpr fun _ _ => Bool.false_ne_true]
  simp only [writesOf, List.map_eq_flatMap]

theorem removeAll_eq (keys : Option Plist) : st.removeAll keys = st.effect (removals keys) (copyStrings keys) false := by
  rw [removeAll, foldl_effect st (fun key => [(key, none)]) (fun key => [key]) (fun _ => false) _ fun key _ st => st.removeValueForKey_eq key,
    List.any_eq_false.mpr fun _ _ => Bool.false_ne_true, List.flatMap_singleton', removals, List.map_eq_flatMap]

theorem setKeys_eq : st.setKeys set = st.apply (.setKeys set st) := by
  cases set with
  | none => exact st.effect_nil.symm
  | some set =>
    rw [setKeys, publishGlobalNetworkStateFromPendingSet_eq]
    simp only [apply, Effect.setKeys, entriesSet, announced, writesOf_append, List.map_append]
    conv_lhs => rw [setAll_eq]
    rw [effect_effect, Bool.false_or, ← setAll_eq]

theorem setMultiple_eq (remove notify : Option Plist) :
    ((st.setKeys set).removeAll remove).notifyStoreKeysChanged notify = st.apply (.setMultiple set remove notify st) := by
  rw [notifyStoreKeysChanged_eq, removeAll_eq, setKeys_eq, apply, effect_effect, effect_effect]
  simp [apply, Effect.setMultiple, Effect.setKeys]

theorem apply_nothing : st.apply {} = st := st.effect_nil

end Server

/-- A request that writes has its effect. -/
theorem Write.run_eq (w : Write) (st : Server) : (w.run st).2 = st.apply (w.effect st) := by
  cases w with
  | configadd key data =>
    rcases key with _ | key
    · exact st.apply_nothing.symm
    · rcases data with _ | value
      · exact st.apply_nothing.symm
      · simp only [Write.run, Server.configadd, Write.effect]
        split
        · exact st.apply_nothing.symm
        · exact st.setValueForKey_eq key value
  | configset key data =>
    rcases key with _ | key
    · exact st.apply_nothing.symm
    · rcases data with _ | value
      · exact st.apply_nothing.symm
      · exact st.setValueForKey_eq key value
  | configremove key =>
    rcases key with _ | key
    · exact st.apply_nothing.symm
    · simp only [Write.run, Server.configremove, Write.effect]
      split
      · exact st.apply_nothing.symm
      · exact st.removeValueForKey_eq key
  | confignotify key => exact st.apply_nothing.symm
  | configsetM data remove notify =>
    simp only [Write.run, Server.configsetM, Write.effect, Bool.or_eq_true]
    split_ifs <;> first | exact st.apply_nothing.symm | exact st.setMultiple_eq _ _ _ | simp_all
  | storeSetValue key value =>
    rcases key with _ | key
    · exact st.apply_nothing.symm
    · rcases value with _ | value
      · exact st.apply_nothing.symm
      · exact st.setValueForKey_eq key value
  | storeSetMultiple keysToSet keysToRemove keysToNotify =>
    simp only [Write.run, Server.storeSetMultiple, Write.effect]
    split_ifs
    · exact st.apply_nothing.symm
    · exact st.setKeys_eq _
    · exact st.setMultiple_eq _ _ _

theorem Effect.setKeys_noted : ∀ w ∈ (Effect.setKeys set st).writes, w.1 ∈ (Effect.setKeys set st).notes := by
  intro w hw
  have := List.mem_map_of_mem (f := Prod.fst) hw
  rwa [Effect.setKeys, map_fst_writesOf] at this

theorem Effect.setMultiple_noted (remove notify : Option Plist) (st : Server) :
    ∀ w ∈ (Effect.setMultiple set remove notify st).writes, w.1 ∈ (Effect.setMultiple set remove notify st).notes := by
  intro w hw
  rcases List.mem_append.mp hw with hw | hw
  · exact List.mem_append_left _ (Effect.setKeys_noted set st w hw)
  · obtain ⟨key, hkey, rfl⟩ := List.mem_map.mp hw
    exact List.mem_append_right _ (List.mem_append_left _ hkey)

/-- Every key that is written is notified. -/
theorem Write.noted (w : Write) (st : Server) : ∀ x ∈ (w.effect st).writes, x.1 ∈ (w.effect st).notes := by
  have hone : ∀ key value, ∀ x ∈ (Effect.write key value).writes, x.1 ∈ (Effect.write key value).notes := by
    intro key value x hx
    obtain rfl := List.mem_singleton.mp hx
    exact List.mem_singleton.mpr rfl
  have hnothing : ∀ x ∈ ({} : Effect).writes, x.1 ∈ ({} : Effect).notes := fun x hx => absurd hx List.not_mem_nil
  unfold Write.effect
  split
  · split <;> first | exact hnothing | exact hone _ _
  · exact hone _ _
  · exact hone _ _
  · split <;> first | exact hnothing | exact hone _ _
  · split
    · exact hnothing
    · exact Effect.setMultiple_noted _ _ _ _
  · split
    · exact hnothing
    · split
      · exact Effect.setKeys_noted _ _
      · exact Effect.setMultiple_noted _ _ _ _
  · exact hnothing

/-! ## What reading does -/

/-- The entries that the first reads publish. -/
def lazyEntries (env : Env) (interface? : Option InterfaceState) (st : Server) : List (CFString × Plist) :=
  if !env.internal || st.published then [] else interface?.toList.flatMap (InterfaceState.entries env)

theorem refresh_sessions : (st.refreshNetworkStateIfNeeded env interface?).sessions = st.sessions := by
  unfold Server.refreshNetworkStateIfNeeded
  split
  · rfl
  · split
    · rfl
    · rw [Server.notifyLaunchdNetworkUp_eq]
      simp [Server.effect, Server.publishEntries, show Session.noteChanges [] = id from rfl]

theorem refresh_store :
    (st.refreshNetworkStateIfNeeded env interface?).store = writeAll (writesOf (lazyEntries env interface? st)) st.store := by
  unfold Server.refreshNetworkStateIfNeeded lazyEntries
  split
  · rfl
  · cases interface? with
    | none => rfl
    | some i => simp [Server.notifyLaunchdNetworkUp_eq, Server.effect, Server.publishEntries, writesOf]

theorem refresh_written :
    (st.refreshNetworkStateIfNeeded env interface?).written = st.written ++ (lazyEntries env interface? st).map Prod.fst := by
  unfold Server.refreshNetworkStateIfNeeded lazyEntries
  split
  · simp
  · cases interface? with
    | none => simp
    | some i => simp [Server.notifyLaunchdNetworkUp_eq, Server.effect, Server.publishEntries]

/-- A read publishes, and may open a session. -/
theorem Read.run_eq (r : Read) (env : Env) (interface? : Option InterfaceState) (st : Server) :
    r.run env interface? st = st.refreshNetworkStateIfNeeded env interface? ∨
      ∃ port, r.run env interface? st = (st.refreshNetworkStateIfNeeded env interface?).getSession port := by
  cases r with
  | configopen session =>
    cases session with
    | none => exact .inl rfl
    | some port => exact .inr ⟨port, rfl⟩
  | configlist pattern isRegex => exact .inl rfl
  | configget key =>
    left
    simp only [Read.run, Server.configget]
    split
    · rfl
    · split <;> rfl
  | configgetM keys patterns => exact .inl rfl

/-! ## What requests about notifications do -/

/-- The requests after which a session's changes start anew. -/
def Notify.Clears : Notify → Prop
  | notifychanges | notifycancel | notifyset _ _ => True
  | _ => False

/-- The keys or the patterns of a session. -/
def Session.array (isRegex : Bool) (s : Session) : List CFString := if isRegex then s.patterns else s.keys

/-- A request about notifications as operations on the arrays. -/
def Notify.ops (isRegex : Bool) : Notify → List (Op CFString)
  | notifyadd (some key) isRegex' => if isRegex' = isRegex then [.insert key] else []
  | notifyremove (some key) isRegex' => if isRegex' = isRegex then [.erase key] else []
  | notifycancel => [.replace []]
  | notifyset keys patterns =>
    if notArray keys || notArray patterns then [] else [.replace (copyStrings (if isRegex then patterns else keys))]
  | _ => []

/-- A request about notifications is refused, or changes its session, which it may make. -/
theorem Notify.run_eq (n : Notify) (server : Port) (st : Server) :
    (n.run server st = st ∧ ∀ isRegex, n.ops isRegex = []) ∨
      ∃ f : Session → Session, (∀ s, (f s).port = s.port) ∧ (¬ n.Clears → ∀ s, (f s).changes = s.changes) ∧
        (∀ isRegex s, (f s).array isRegex = (n.ops isRegex).foldl Op.onArray (s.array isRegex)) ∧
        (n.run server st = st.changeSessions server f ∧ (∀ isRegex, (n.ops isRegex).foldl Op.onArray [] = []) ∨
          n.run server st = (st.getSession server).changeSessions server f) := by
  cases n with
  | notifyadd key isRegex' =>
    cases key with
    | none => exact .inl ⟨rfl, fun _ => rfl⟩
    | some key =>
      refine .inr ⟨_, fun s => ?_, fun _ s => ?_, fun isRegex s => ?_, .inr rfl⟩
      · cases isRegex' <;> rfl
      · cases isRegex' <;> rfl
      · cases isRegex' <;> cases isRegex <;> simp [Session.array, Notify.ops, Op.onArray, insertString]
  | notifyremove key isRegex' =>
    cases key with
    | none => exact .inl ⟨rfl, fun _ => rfl⟩
    | some key =>
      refine .inr ⟨_, fun s => ?_, fun _ s => ?_, fun isRegex s => ?_, .inl ⟨rfl, fun isRegex => ?_⟩⟩
      · cases isRegex' <;> rfl
      · cases isRegex' <;> rfl
      · cases isRegex' <;> cases isRegex <;> simp [Session.array, Notify.ops, Op.onArray]
      · cases isRegex' <;> cases isRegex <;> rfl
  | notifychanges =>
    exact .inr ⟨fun s => { s with changes := [] }, fun _ => rfl, fun h => absurd trivial h, fun _ _ => rfl, .inr rfl⟩
  | notifyviaport p msgid =>
    simp only [Notify.run, Server.notifyviaport]
    split
    · exact .inl ⟨rfl, fun _ => rfl⟩
    · refine .inr ⟨fun s => if p ≠ machPortNull ∧ p ∉ s.ports then { s with ports := s.ports ++ [p] } else s,
        fun s => ?_, fun _ s => ?_, fun isRegex s => ?_, .inr rfl⟩
      all_goals
        dsimp only
        split <;> rfl
  | notifycancel =>
    refine .inr ⟨fun s => { s with keys := [], patterns := [], changes := [], ports := [] }, fun _ => rfl, fun h => absurd trivial h,
      fun isRegex s => ?_, .inl ⟨rfl, fun _ => rfl⟩⟩
    cases isRegex <;> rfl
  | notifyset keys patterns =>
    simp only [Notify.run, Server.notifyset, Notify.ops, Bool.or_eq_true]
    split
    · rename_i hkeys
      exact .inl ⟨rfl, fun _ => if_pos (.inl hkeys)⟩
    · rename_i hkeys
      split
      · rename_i hpatterns
        exact .inl ⟨rfl, fun _ => if_pos (.inr hpatterns)⟩
      · rename_i hpatterns
        simp only [if_neg (not_or.mpr ⟨hkeys, hpatterns⟩)]
        refine .inr ⟨fun s => { s with keys := copyStrings keys, patterns := copyStrings patterns, changes := [] },
          fun _ => rfl, fun h => absurd trivial h, fun isRegex s => ?_, .inr rfl⟩
        cases isRegex <;> rfl

@[simp] theorem Server.getSession_written (st : Server) (port : Port) : (st.getSession port).written = st.written := by
  unfold Server.getSession
  split <;> rfl

@[simp] theorem Server.getSession_store (st : Server) (port : Port) : (st.getSession port).store = st.store := by
  unfold Server.getSession
  split <;> rfl

/-- The session of a port, which may be a new one. -/
theorem findSession_getSession_eq (st : Server) (port p : Port) : findSession p (st.getSession port).sessions =
    (findSession p st.sessions).or (if port = p then some ⟨port, [], [], [], []⟩ else none) := by
  unfold Server.getSession
  by_cases hp : port = p
  · subst hp
    split
    · rename_i s hs
      rw [hs]
      rfl
    · rename_i hs
      rw [hs]
      simp [findSession]
  · split
    · simp [hp]
    · simp [findSession, hp]

theorem findSession_getSession {st : Server} {p port : Port} {s : Session} (h : findSession p st.sessions = some s) :
    findSession p (st.getSession port).sessions = some s := by
  rw [findSession_getSession_eq, h]
  rfl

/-! ## The instance number -/

/-- The instance number has grown, or the store is the same. -/
def Newer (st st' : Server) : Prop := st.inst < st'.inst ∨ st'.inst = st.inst ∧ st'.store = st.store

theorem Newer.trans {st st₁ st₂ : Server} (h : Newer st st₁) (h' : Newer st₁ st₂) : Newer st st₂ := by
  unfold Newer at *
  grind

theorem newer_refresh : Newer st (st.refreshNetworkStateIfNeeded env interface?) := by
  unfold Server.refreshNetworkStateIfNeeded
  split
  · exact .inr ⟨rfl, rfl⟩
  · cases interface? with
    | none => exact .inr ⟨rfl, rfl⟩
    | some i => simp [Newer, Server.notifyLaunchdNetworkUp_eq, Server.effect]

theorem Newer.getSession {st st' : Server} (h : Newer st st') (port : Port) : Newer st (st'.getSession port) := by
  unfold Server.getSession
  split <;> exact h

theorem newer_step (c : Call) : Newer st (st.step env c) := by
  cases c with
  | read r interface? =>
    rcases r.run_eq env interface? st with h | ⟨p, h⟩ <;> rw [Server.step, h]
    · exact newer_refresh env interface? st
    · exact (newer_refresh env interface? st).getSession p
  | write w =>
    rw [Server.step, w.run_eq, Newer]
    cases hw : (w.effect st).writes <;> simp [Server.apply, Server.effect, hw, writeAll]
  | notify server n =>
    have hsame : Newer st st := .inr ⟨rfl, rfl⟩
    rcases n.run_eq server st with ⟨h, -⟩ | ⟨f, -, -, -, ⟨h, -⟩ | h⟩ <;> rw [Server.step, h]
    · exact hsame
    · exact hsame
    · exact hsame.getSession server

theorem newer_run (calls : List Call) : Newer st (st.run env calls) := by
  induction calls generalizing st with
  | nil => exact .inr ⟨rfl, rfl⟩
  | cons c calls ih => exact (newer_step env st c).trans (ih (st.step env c))

/-- The 32 bits of the instance number are a version of the store: over any run they change,
    or the store does not, unless they come around. -/
theorem instance_is_version (env : Env) (st : Server) (calls : List Call) :
    (st.run env calls).inst % 2 ^ 32 ≠ st.inst % 2 ^ 32 ∨ st.inst + 2 ^ 32 ≤ (st.run env calls).inst ∨
      (st.run env calls).store = st.store := by
  rcases newer_run env st calls with h | ⟨-, h⟩
  · omega
  · exact .inr (.inr h)

/-! ## What `_configget_m` finds -/

/-- An absent or an empty argument is not decoded; `decode` is `CFPropertyListCreateWithData`. -/
def copyInPlist (decode : List UInt8 → Option Plist) : Option (List UInt8) → Option Plist
  | none | some [] => none
  | some data => decode data

/-- The key is listed, or a pattern matches it. -/
def Asked (keys patterns : Option Plist) (key : CFString) : Prop :=
  key ∈ copyStrings keys ∨ ∃ pattern ∈ copyStrings patterns, stringMatchesStorePattern key pattern = true

theorem not_asked {keys patterns : Option Plist} (hkeys : isArray keys = false) (hpatterns : isArray patterns = false)
    (key : CFString) : ¬ Asked keys patterns key := by
  have hnil : ∀ {arg : Option Plist}, isArray arg = false → copyStrings arg = [] := by
    intro arg h
    unfold copyStrings
    split
    · cases h
    · rfl
  simp [Asked, hnil hkeys, hnil hpatterns]

theorem Server.configgetM_eq_some (keys patterns : Option Plist) (st : Server)
    (key : CFString) (value : Plist) : (st.configgetM env interface? keys patterns).1.2 key = some value ↔
      (st.refreshNetworkStateIfNeeded env interface?).store key = some value ∧
        (Asked keys patterns key ∨ isArray keys = false ∧ isArray patterns = false) := by
  unfold Server.configgetM Asked
  simp only [Bool.or_eq_true, decide_eq_true_eq, List.any_eq_true, Bool.and_eq_true, Bool.not_eq_true']
  split
  · rename_i hfound
    exact (and_iff_left hfound).symm
  · rename_i hfound
    exact iff_of_false (fun h => nomatch h) fun h => hfound h.2

/-- The dictionary has the entries of the refreshed store that were asked for, and no others, exactly
    if one of the arguments decodes to an array or the store is empty: without an array all of it is
    returned, as if nothing had been asked for. -/
theorem configgetM_asked_iff (decode : List UInt8 → Option Plist) (env : Env) (interface? : Option InterfaceState)
    (keys patterns : Option (List UInt8)) (st : Server) :
    (st.configgetM env interface? (copyInPlist decode keys) (copyInPlist decode patterns)).1.1 = .ok ∧
    ((∀ key value, (st.configgetM env interface? (copyInPlist decode keys) (copyInPlist decode patterns)).1.2 key = some value ↔
        (st.refreshNetworkStateIfNeeded env interface?).store key = some value ∧
          Asked (copyInPlist decode keys) (copyInPlist decode patterns) key) ↔
      isArray (copyInPlist decode keys) = true ∨ isArray (copyInPlist decode patterns) = true ∨
        ∀ key, (st.refreshNetworkStateIfNeeded env interface?).store key = none) := by
  refine ⟨rfl, ?_⟩
  simp only [Server.configgetM_eq_some]
  generalize copyInPlist decode keys = keys
  generalize copyInPlist decode patterns = patterns
  generalize (st.refreshNetworkStateIfNeeded env interface?).store = store
  cases hkeys : isArray keys with
  | true => simp
  | false =>
    cases hpatterns : isArray patterns with
    | true => simp
    | false =>
      -- nothing is asked for, and everything is returned
      simp only [not_asked hkeys hpatterns, Bool.false_eq_true, false_or, and_self, and_true, and_false, iff_false]
      exact forall_congr' fun key => Option.eq_none_iff_forall_ne_some.symm

/-- Keys that do not decode get the whole store. -/
theorem undecodable_keys_get_everything :
    (({ store := fun key => if key = ['a'] then some (.string ['b']) else none } : Server).configgetM ⟨false, none, none⟩ none
        (copyInPlist (fun _ => none) (some [0x78])) (copyInPlist (fun _ => none) none)).1.2 ['a'] = some (.string ['b']) ∧
      ¬ Asked (copyInPlist (fun _ => none) (some [0x78])) (copyInPlist (fun _ => none) none) ['a'] :=
  ⟨rfl, not_asked rfl rfl _⟩

end Panthera.Configd
