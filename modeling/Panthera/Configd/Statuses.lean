/-
  Panthera.Configd.Statuses — what a request's status says
  (`_configadd`, `_configset`, `_configset_m`, `_configremove`, `panthera_configd_store_set_value`,
  `panthera_configd_store_set_multiple`).

  A status is true if a request that is refused leaves the store and the pending changes as they
  were, and one that is accepted leaves in the store what it was asked to set and not to remove.
  Two things are in the way. The in-process call looks at the keys to remove only when it has set the
  others. And setting several keys publishes what follows from them over the keys that were set.

  When a status is true is said for every request and every state of the server (`status_true_iff`).
-/

import Panthera.Configd.Multiple

namespace Panthera.Configd

open Lib.Updates

/-! ## Requested and published entries -/

/-- The entries that a request is to set. -/
def Write.requested : Write → List (CFString × Plist)
  | configadd (some key) (some value) | configset (some key) (some value) | storeSetValue (some key) (some value) => [(key, value)]
  | configsetM (some (some set)) _ _ | storeSetMultiple (some (some set)) _ _ => set.entries
  | _ => []

/-- The keys that it is to remove. -/
def Write.removes : Write → List CFString
  | configremove key => key.toList
  | configsetM _ remove _ | storeSetMultiple _ remove _ => copyStrings remove
  | _ => []

/-- What the status says is so. -/
structure Write.StatusTrue (w : Write) (st : Server) : Prop where
  refused : (w.run st).1 ≠ .ok → (w.run st).2.store = st.store ∧ (w.run st).2.sessions = st.sessions
  accepted : (w.run st).1 = .ok → ∀ e ∈ w.requested, e.1 ∉ w.removes → (w.run st).2.store e.1 = some e.2

/-- The entries that follow from keys that are set. -/
def published (set : KeysToSet) (st : Server) : List (CFString × Plist) := set.entries.flatMap (derivedEntries set st)

/-- The entries are in the store, and pending where they are watched: setting them changes nothing. -/
def Settled (entries : List (CFString × Plist)) (st : Server) : Prop :=
  (∀ key value, lastWrite entries key = some value → st.store key = some value) ∧
    ∀ e ∈ entries, ∀ s ∈ st.sessions, s.matchesKey e.1 → e.1 ∈ s.changes

/-- No entry that is published takes the place of one that was set. -/
def Kept (set : KeysToSet) (remove : Option Plist) (st : Server) : Prop :=
  ∀ e ∈ set.entries, e.1 ∉ copyStrings remove → ∀ value, lastWrite (published set st) e.1 = some value → value = e.2

def Write.Sound (st : Server) : Write → Prop
  | configsetM (some (some set)) remove notify => notArray remove = false → notArray notify = false → Kept set remove st
  | storeSetMultiple (some (some set)) remove _ =>
    if notArray remove then Settled (set.entries ++ published set st) st else Kept set remove st
  | _ => True

/-! ## One request -/

theorem lastWrite_writesOf (l : List (CFString × Plist)) (key : CFString) : lastWrite (writesOf l) key = (lastWrite l key).map some := by
  simp only [lastWrite, writesOf, ← List.map_reverse, List.find?_map, Option.map_map]
  rfl

section

variable {st : Server} {set : KeysToSet} {remove notify : Option Plist}

theorem entriesSet_some (set : KeysToSet) (st : Server) : entriesSet (some set) st = set.entries ++ published set st := by
  rw [entriesSet, published, funext (derivedEntries_setAll set st)]

/-- Setting keys changes nothing exactly if they are settled. -/
theorem setKeys_eq_self_iff :
    (st.apply (.setKeys (some set) st)).store = st.store ∧ (st.apply (.setKeys (some set) st)).sessions = st.sessions ↔
      Settled (set.entries ++ published set st) st := by
  rw [← entriesSet_some]
  generalize hentries : entriesSet (some set) st = entries
  have hstore : (st.apply (.setKeys (some set) st)).store = writeAll (writesOf entries) st.store := by rw [← hentries]; rfl
  have hsessions : (st.apply (.setKeys (some set) st)).sessions = st.sessions.map (Session.noteChanges (entries.map Prod.fst)) := by
    rw [← hentries]
    rfl
  rw [hstore, hsessions, writeAll_eq_self_iff, Settled]
  apply and_congr
  · simp only [lastWrite_writesOf, Option.map_eq_some_iff]
    constructor
    · intro h key value hlast
      exact h key (some value) ⟨value, hlast, rfl⟩
    · rintro h key _ ⟨value, hlast, rfl⟩
      exact h key value hlast
  · have hmap : st.sessions.map (Session.noteChanges (entries.map Prod.fst)) = st.sessions ↔
        ∀ s ∈ st.sessions, s.noteChanges (entries.map Prod.fst) = s := by
      simpa using List.map_inj_left (g := id)
    rw [hmap]
    simp only [Session.noteChanges_eq_self_iff, List.forall_mem_map]
    exact ⟨fun h e he s hs => h s hs e he, fun h s hs e he => h e he s hs⟩

/-- What is left of a key that was set and not removed. -/
theorem setMultiple_store {e : CFString × Plist} (he : e ∈ set.entries) (hkey : e.1 ∉ copyStrings remove) :
    (st.apply (.setMultiple (some set) remove notify st)).store e.1 = some ((lastWrite (published set st) e.1).getD e.2) := by
  have hset : writeAll (writesOf set.entries) st.store e.1 = some e.2 :=
    writeAll_writesOf he fun v hv => congrArg Prod.snd (List.inj_on_of_nodup_map set.nodup hv he rfl)
  have hremoved : ∀ v, (e.1, v) ∉ removals remove := by
    intro v hv
    obtain ⟨key, hmem, heq⟩ := List.mem_map.mp hv
    cases heq
    exact hkey hmem
  calc (st.apply (.setMultiple (some set) remove notify st)).store e.1
      = writeAll (writesOf (entriesSet (some set) st) ++ removals remove) st.store e.1 := rfl
    _ = writeAll (writesOf (published set st)) (writeAll (writesOf set.entries) st.store) e.1 := by
      rw [writeAll_append, writeAll_of_notMem hremoved, entriesSet_some, writesOf_append, writeAll_append]
    _ = some ((lastWrite (published set st) e.1).getD e.2) := by
      rw [writeAll_apply, lastWrite_writesOf, hset]
      cases lastWrite (published set st) e.1 <;> rfl

theorem setMultiple_kept_iff (notify : Option Plist) :
    (∀ e ∈ set.entries, e.1 ∉ copyStrings remove → (st.apply (.setMultiple (some set) remove notify st)).store e.1 = some e.2) ↔
      Kept set remove st := by
  apply forall₂_congr
  intro e he
  apply forall_congr'
  intro hkey
  rw [setMultiple_store he hkey, Option.some_inj]
  cases lastWrite (published set st) e.1 with
  | none => simp
  | some value => simp

end

/-! ## Every request -/

/-- Requests that do nothing if they are refused, and set one key or none. -/
theorem Write.statusTrue_of_one {w : Write} {st : Server} (hrefused : (w.run st).1 ≠ .ok → w.effect st = {})
    (haccepted : (w.run st).1 = .ok → ∀ e ∈ w.requested, (w.effect st).writes = [(e.1, some e.2)]) : w.StatusTrue st := by
  constructor
  · intro h
    rw [w.run_eq, hrefused h, st.apply_nothing]
    exact ⟨rfl, rfl⟩
  · intro h e he _
    have hwrites : (st.apply (w.effect st)).store = writeAll (w.effect st).writes st.store := rfl
    rw [w.run_eq, hwrites, haccepted h e he]
    exact Function.update_self _ _ _

theorem Write.statusTrue_of_nothing {w : Write} {st : Server} (heffect : w.effect st = {}) (hnone : w.requested = []) : w.StatusTrue st :=
  statusTrue_of_one (fun _ => heffect) fun _ _ he => absurd (hnone ▸ he) List.not_mem_nil

theorem configadd_statusTrue (key : Option CFString) (data : Option Plist) (st : Server) : (Write.configadd key data).StatusTrue st := by
  rcases key with _ | key
  · exact Write.statusTrue_of_nothing rfl rfl
  · rcases data with _ | value
    · exact Write.statusTrue_of_nothing rfl rfl
    · apply Write.statusTrue_of_one
      · intro h
        rw [Write.effect]
        split
        · rfl
        · rename_i hnew
          exact absurd (by simp [Write.run, Server.configadd, hnew]) h
      · intro h e he
        obtain rfl := List.mem_singleton.mp he
        have hnew : (st.store key).isSome = false := by
          by_contra hold
          rw [Bool.not_eq_false] at hold
          simp [Write.run, Server.configadd, hold] at h
        simp [Write.effect, hnew, Effect.write]

/-- `_configset` and `panthera_configd_store_set_value` -/
theorem set_statusTrue (key : Option CFString) (data : Option Plist) (st : Server) :
    (Write.configset key data).StatusTrue st ∧ (Write.storeSetValue key data).StatusTrue st := by
  rcases key with _ | key
  · constructor <;> exact Write.statusTrue_of_nothing rfl rfl
  · rcases data with _ | value
    · constructor <;> exact Write.statusTrue_of_nothing rfl rfl
    · constructor <;>
      · apply Write.statusTrue_of_one
        · exact fun h => absurd rfl h
        · rintro - e he
          obtain rfl := List.mem_singleton.mp he
          rfl

theorem configremove_statusTrue (key : Option CFString) (st : Server) : (Write.configremove key).StatusTrue st := by
  rcases key with _ | key
  · exact Write.statusTrue_of_nothing rfl rfl
  · apply Write.statusTrue_of_one
    · intro h
      rw [Write.effect]
      split
      · rfl
      · rename_i hold
        exact absurd (by simp [Write.run, Server.configremove, hold]) h
    · exact fun _ e he => absurd he List.not_mem_nil

theorem configsetM_statusTrue_iff (data : Option (Option KeysToSet)) (remove notify : Option Plist) (st : Server) :
    (Write.configsetM data remove notify).StatusTrue st ↔ (Write.configsetM data remove notify).Sound st := by
  have hrefused : ((Write.configsetM data remove notify).run st).1 ≠ .ok → (Write.configsetM data remove notify).effect st = {} := by
    intro h
    simp only [Write.run, Server.configsetM, Write.effect, Bool.or_eq_true] at h ⊢
    split_ifs at h <;> simp_all
  rcases data with _ | _ | set
  · exact iff_of_true (Write.statusTrue_of_one hrefused fun _ e he => absurd he List.not_mem_nil) trivial
  · exact iff_of_true (Write.statusTrue_of_one hrefused fun _ e he => absurd he List.not_mem_nil) trivial
  · rw [Write.Sound]
    by_cases hargs : notArray remove = false ∧ notArray notify = false
    · obtain ⟨hremove, hnotify⟩ := hargs
      have hok : ((Write.configsetM (some (some set)) remove notify).run st).1 = .ok := by
        simp [Write.run, Server.configsetM, notDictionary, hremove, hnotify]
      have heffect : (Write.configsetM (some (some set)) remove notify).effect st = .setMultiple (some set) remove notify st := by
        simp [Write.effect, notDictionary, hremove, hnotify]
      rw [forall_prop_of_true hremove, forall_prop_of_true hnotify, ← setMultiple_kept_iff notify, ← heffect, ← Write.run_eq]
      exact ⟨fun h => h.accepted hok, fun h => ⟨fun hno => absurd hok hno, fun _ => h⟩⟩
    · have hno : ((Write.configsetM (some (some set)) remove notify).run st).1 ≠ .ok := by
        simp only [Write.run, Server.configsetM, notDictionary]
        split_ifs <;> simp_all
      refine iff_of_true (Write.statusTrue_of_one hrefused fun hok => absurd hok hno) ?_
      exact fun hremove hnotify => absurd ⟨hremove, hnotify⟩ hargs

theorem storeSetMultiple_statusTrue_iff (keysToSet : Option (Option KeysToSet)) (remove notify : Option Plist) (st : Server) :
    (Write.storeSetMultiple keysToSet remove notify).StatusTrue st ↔ (Write.storeSetMultiple keysToSet remove notify).Sound st := by
  rcases keysToSet with _ | _ | set
  · refine iff_of_true (Write.statusTrue_of_one (fun hno => ?_) fun _ e he => absurd he List.not_mem_nil) trivial
    have hremove : notArray remove = true := by
      by_contra hremove
      exact hno (by simp [Write.run, Server.storeSetMultiple, notDictionary, hremove])
    simp [Write.effect, notDictionary, hremove, Effect.setKeys, entriesSet, announced, writesOf]
  · exact iff_of_true (Write.statusTrue_of_nothing rfl rfl) trivial
  · rw [Write.Sound]
    cases hremove : notArray remove with
    | true =>
      -- refused, when the keys are set
      have hno : ((Write.storeSetMultiple (some (some set)) remove notify).run st).1 ≠ .ok := by
        simp [Write.run, Server.storeSetMultiple, notDictionary, hremove]
      have heffect : (Write.storeSetMultiple (some (some set)) remove notify).effect st = .setKeys (some set) st := by
        simp [Write.effect, notDictionary, hremove]
      rw [if_pos rfl, ← setKeys_eq_self_iff, ← heffect, ← Write.run_eq]
      exact ⟨fun h => h.refused hno, fun h => ⟨fun _ => h, fun hok => absurd hok hno⟩⟩
    | false =>
      have hok : ((Write.storeSetMultiple (some (some set)) remove notify).run st).1 = .ok := by
        simp [Write.run, Server.storeSetMultiple, notDictionary, hremove]
      have heffect : (Write.storeSetMultiple (some (some set)) remove notify).effect st = .setMultiple (some set) remove notify st := by
        simp [Write.effect, notDictionary, hremove]
      rw [if_neg Bool.false_ne_true, ← setMultiple_kept_iff notify, ← heffect, ← Write.run_eq]
      exact ⟨fun h => h.accepted hok, fun h => ⟨fun hno => absurd hok hno, fun _ => h⟩⟩

/-- The status of a request is true exactly if no entry of a refused one is new, and no entry that follows from an accepted
    one takes the place of a key that it set. -/
theorem status_true_iff (w : Write) (st : Server) : w.StatusTrue st ↔ w.Sound st := by
  cases w with
  | configadd key data => exact iff_of_true (configadd_statusTrue key data st) trivial
  | configset key data => exact iff_of_true (set_statusTrue key data st).1 trivial
  | configremove key => exact iff_of_true (configremove_statusTrue key st) trivial
  | confignotify key => exact iff_of_true (Write.statusTrue_of_nothing rfl rfl) trivial
  | configsetM data remove notify => exact configsetM_statusTrue_iff data remove notify st
  | storeSetValue key value => exact iff_of_true (set_statusTrue key value st).2 trivial
  | storeSetMultiple keysToSet remove notify => exact storeSetMultiple_statusTrue_iff keysToSet remove notify st

/-- A dictionary that says what a service's state is, and says itself what the global entry is to be. -/
def serviceAndGlobal : KeysToSet := ⟨[serviceState "a" "en0", (globalIPv4Key, .boolean true)], by
  simp [serviceState, copyServiceEntityKey, networkServiceEntity, globalIPv4Key, networkGlobalEntity, stateDomain, networkService, networkGlobal]⟩

/-- A refused call sets its key: `panthera_configd_store_set_multiple` with a string as the keys to remove. And an accepted request
    does not leave the global entry that it was asked to set. -/
theorem a_status_is_not_true :
    ((Write.storeSetMultiple (some (some (.single ['k'] (.boolean true)))) (some (.string ['k'])) none).run emptyServer).1 = .invalidArgument ∧
      (((Write.storeSetMultiple (some (some (.single ['k'] (.boolean true)))) (some (.string ['k'])) none).run emptyServer).2.store ['k']).isSome ∧
      (emptyServer.store ['k']).isNone ∧
    ((Write.configsetM (some (some serviceAndGlobal)) none none).run emptyServer).1 = .ok ∧
      ((((Write.configsetM (some (some serviceAndGlobal)) none none).run emptyServer).2.store globalIPv4Key).bind Plist.dictionary?).isSome := by
  decide +kernel

end Panthera.Configd
