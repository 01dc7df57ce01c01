/-
  Panthera.Configd.Multiple — setting several keys at once
  (`panthera_configd.c`: `_configset_m`, against `_configset`).

  `_configset_m` sets its keys and then publishes what follows from each of them.
  Compared with `_configset` of one key, the difference is what follows from that key: none of it is
  published by `_configset` (`set_eq_setMultiple_iff`). Of several keys, what follows from
  the last one wins, and their order is CoreFoundation's (`setMultiple_order_iff`).
-/

import Panthera.Configd.Requests

namespace Panthera.Configd

open Lib.Updates

/-! ## Keys to set -/

namespace KeysToSet

variable {set set' : KeysToSet} {key : CFString} {value : Plist}

theorem value_eq_some : set.value key = some value ↔ (key, value) ∈ set.entries := by
  unfold KeysToSet.value
  constructor
  · intro h
    obtain ⟨e, he, rfl⟩ := Option.map_eq_some_iff.mp h
    obtain rfl : e.1 = key := by simpa using List.find?_some he
    exact List.mem_of_find?_eq_some he
  · intro h
    cases hfind : set.entries.find? (·.1 = key) with
    | none =>
      have hnone := List.find?_eq_none.mp hfind _ h
      simp at hnone
    | some e =>
      have hkey : e.1 = key := by simpa using List.find?_some hfind
      have he := List.inj_on_of_nodup_map set.nodup (List.mem_of_find?_eq_some hfind) h hkey
      rw [Option.map_some, he]

/-- A dictionary is the same in every order. -/
theorem value_perm (h : set'.entries.Perm set.entries) : set'.value = set.value := by
  funext key
  apply Option.ext
  intro value
  rw [value_eq_some, value_eq_some, h.mem_iff]

end KeysToSet

variable (set : KeysToSet) (st : Server) (e : CFString × Plist)

/-- The keys that are set are found as they are set, before they are set. -/
theorem pending_setAll (key : CFString) :
    (st.setAll set).copyPendingOrStoredDictionary set key = st.copyPendingOrStoredDictionary set key := by
  unfold Server.copyPendingOrStoredDictionary
  cases hvalue : set.value key with
  | some value => rfl
  | none =>
    have hstore : (st.setAll set).store key = st.store key := by
      rw [Server.setAll_eq]
      refine writeAll_of_notMem fun v hv => ?_
      obtain ⟨value, hmem, -⟩ := mem_writesOf.mp hv
      rw [KeysToSet.value_eq_some.mpr hmem] at hvalue
      cases hvalue
    rw [hstore]

theorem publication_setAll : publication set (st.setAll set) e = publication set st e := by
  simp only [publication, Server.copyPendingOrStoredServiceEntity, Server.copyPendingOrStoredIpconfigurationEntity, pending_setAll]

theorem derivedEntries_setAll : derivedEntries set (st.setAll set) e = derivedEntries set st e := by
  rw [derivedEntries, publication_setAll, derivedEntries]

/-- What follows from a key does not depend on the order. -/
theorem derivedEntries_perm {set set' : KeysToSet} (h : set'.entries.Perm set.entries) (st : Server) (e : CFString × Plist) :
    derivedEntries set' st e = derivedEntries set st e := by
  have hvalue := KeysToSet.value_perm h
  simp only [derivedEntries, publication, Server.copyPendingOrStoredServiceEntity, Server.copyPendingOrStoredIpconfigurationEntity,
    Server.copyPendingOrStoredDictionary, hvalue]

/-- Something follows from a service's keys only. -/
theorem source_of_derivedEntries {set : KeysToSet} {st : Server} {e w : CFString × Plist} (h : w ∈ derivedEntries set st e) : Source e.1 := by
  obtain ⟨p, hp, -⟩ := List.mem_flatMap.mp h
  rw [Option.mem_toList] at hp
  unfold publication at hp
  split at hp
  · rename_i id hid
    exact .inl ⟨id, _, (copyServiceEntityId_eq_some.mp hid).1⟩
  · obtain ⟨id, hid, -⟩ := Option.bind_eq_some_iff.mp hp
    exact .inr ⟨id, (copyIpconfigurationServiceId_eq_some.mp hid).1⟩

/-- One key makes no two of one entry. -/
theorem derivedEntries_unique {set : KeysToSet} {st : Server} {e : CFString × Plist} {key : CFString} {v v' : Plist}
    (h : (key, v) ∈ derivedEntries set st e) (h' : (key, v') ∈ derivedEntries set st e) : v = v' := by
  obtain ⟨p, hp, hv⟩ := List.mem_flatMap.mp h
  obtain ⟨p', hp', hv'⟩ := List.mem_flatMap.mp h'
  rw [Option.mem_toList] at hp hp'
  obtain rfl : p = p' := Option.some.inj (hp.symm.trans hp')
  exact congrArg Prod.snd (List.inj_on_of_nodup_map p.entries_nodup hv hv' rfl)

/-- An accepted `_configset_m`. -/
theorem configsetM_eq (set : KeysToSet) {remove notify : Option Plist} (hr : notArray remove = false) (hn : notArray notify = false) :
    (st.configsetM (some (some set)) remove notify).2 =
      let entries := set.entries ++ set.entries.flatMap (derivedEntries set st)
      st.effect (writesOf entries ++ removals remove) (entries.map Prod.fst ++ (copyStrings remove ++ copyStrings notify))
        (set.entries.any (announces set st)) := by
  have hrun := Write.run_eq (.configsetM (some (some set)) remove notify) st
  have hentries : derivedEntries set (st.setAll set) = derivedEntries set st := funext (derivedEntries_setAll set st)
  have hup : announces set (st.setAll set) = announces set st := by
    funext e
    rw [announces, publication_setAll, announces]
  rw [Write.effect, if_neg (by simp [notDictionary, hr, hn])] at hrun
  exact hrun.trans (by simp only [Server.apply, Effect.setMultiple, entriesSet, announced, Option.join_some, hentries, hup])

/-! ## One key -/

def KeysToSet.single (key : CFString) (value : Plist) : KeysToSet := ⟨[(key, value)], List.nodup_singleton key⟩

/-- `_configset_m` of one key does what `_configset` does exactly if everything that follows from the key is there already. -/
theorem set_eq_setMultiple_iff (st : Server) (key : CFString) (value : Plist) :
    ((st.configsetM (some (some (.single key value))) none none).2.store = (st.configset (some key) (some value)).2.store ∧
      (st.configsetM (some (some (.single key value))) none none).2.sessions = (st.configset (some key) (some value)).2.sessions ∧
      (st.configsetM (some (some (.single key value))) none none).2.signals = (st.configset (some key) (some value)).2.signals) ↔
    (∀ e ∈ derivedEntries (.single key value) st (key, value),
        st.store e.1 = some e.2 ∧ ∀ s ∈ st.sessions, s.matchesKey e.1 → e.1 ∈ s.changes) ∧
      (announces (.single key value) st (key, value) → st.notified) := by
  have hone : (st.configset (some key) (some value)).2 = st.effect [(key, some value)] [key] false := st.setValueForKey_eq key value
  have hmany : (st.configsetM (some (some (.single key value))) none none).2 = _ := configsetM_eq st (.single key value) rfl rfl
  rw [hmany, hone]
  simp only [KeysToSet.single, List.flatMap_singleton, List.any_cons, List.any_nil, Bool.or_false, removals, copyStrings, List.map_nil, List.append_nil]
  generalize hD : derivedEntries _ st (key, value) = D
  generalize announces _ st (key, value) = up
  -- what follows from a key is not the key itself
  have hne : ∀ e ∈ D, e.1 ≠ key := by
    intro e he
    rw [← hD] at he
    exact (st.derived_of_mem_derivedEntries he).ne_source (source_of_derivedEntries he)
  have hstore : (st.effect (writesOf ([(key, value)] ++ D)) (([(key, value)] ++ D).map Prod.fst) up).store =
      (st.effect [(key, some value)] [key] false).store ↔ ∀ e ∈ D, st.store e.1 = some e.2 := by
    have hiff := writeAll_writesOf_eq_self_iff (l := D) (fun hv hv' => derivedEntries_unique (hD ▸ hv) (hD ▸ hv')) (Function.update st.store key (some value))
    refine hiff.trans (forall₂_congr fun e he => ?_)
    rw [Function.update_of_ne (hne e he)]
  have hsessions : (st.effect (writesOf ([(key, value)] ++ D)) (([(key, value)] ++ D).map Prod.fst) up).sessions =
      (st.effect [(key, some value)] [key] false).sessions ↔ ∀ e ∈ D, ∀ s ∈ st.sessions, s.matchesKey e.1 → e.1 ∈ s.changes := by
    have hsession : ∀ s : Session, s.noteChanges (([(key, value)] ++ D).map Prod.fst) = s.noteChanges [key] ↔
        ∀ e ∈ D, s.matchesKey e.1 → e.1 ∈ s.changes := by
      intro s
      rw [List.map_append, Session.noteChanges_append]
      refine (Session.noteChanges_eq_self_iff _ _).trans ?_
      simp only [List.forall_mem_map, Session.noteChanges_matchesKey, Session.mem_noteChanges]
      refine forall₂_congr fun e he => ?_
      simp [hne e he]
    simp only [Server.effect, List.map_inj_left, hsession]
    exact ⟨fun h e he s hs => h s hs e he, fun h s hs e he => h e he s hs⟩
  have hsignals : (st.effect (writesOf ([(key, value)] ++ D)) (([(key, value)] ++ D).map Prod.fst) up).signals =
      (st.effect [(key, some value)] [key] false).signals ↔ (up → st.notified) := by
    simp only [Server.effect]
    cases up <;> cases st.notified <;> simp
  rw [hstore, hsessions, hsignals]
  exact ⟨fun h => ⟨fun e he => ⟨h.1 e he, h.2.1 e he⟩, h.2.2⟩, fun h => ⟨fun e he => (h.1 e he).1, fun e he => (h.1 e he).2, h.2⟩⟩

/-- The state of a service: an IPv4 entity with its interface. -/
def serviceState (id ifname : String) : CFString × Plist :=
  (copyServiceEntityKey id.toList entIPv4, .dictionary (dictionaryOf [(propInterfaceName, .string ifname.toList)]))

def emptyServer : Server := ⟨fun _ => none, 0, false, false, 0, [], [], []⟩

/-- A service's state that is set alone has no global entry and is no news for launchd; set in a dictionary, it has one and is. -/
theorem a_service_set_alone_is_not_published :
    ((emptyServer.configset (some (serviceState "a" "en0").1) (some (serviceState "a" "en0").2)).2.store globalIPv4Key).isNone ∧
      (emptyServer.configset (some (serviceState "a" "en0").1) (some (serviceState "a" "en0").2)).2.signals = 0 ∧
      ((emptyServer.configsetM (some (some (.single (serviceState "a" "en0").1 (serviceState "a" "en0").2))) none none).2.store globalIPv4Key).isSome ∧
      (emptyServer.configsetM (some (some (.single (serviceState "a" "en0").1 (serviceState "a" "en0").2))) none none).2.signals = 1 := by
  decide +kernel

/-! ## Several keys -/

section

variable {st : Server} {set set' : KeysToSet} {remove notify : Option Plist} {key : CFString}

/-- A key that is not removed: what follows from the keys, over the keys themselves. -/
theorem configsetM_kept (hr : notArray remove = false) (hn : notArray notify = false) (hperm : set'.entries.Perm set.entries)
    (hkey : key ∉ copyStrings remove) :
    (st.configsetM (some (some set')) remove notify).2.store key =
      writeAll (set'.entries.flatMap fun e => writesOf (derivedEntries set st e)) (writeAll (writesOf set.entries) st.store) key := by
  have hentries : derivedEntries set' st = derivedEntries set st := funext (derivedEntries_perm hperm st)
  have hset : writeAll (writesOf set'.entries) st.store = writeAll (writesOf set.entries) st.store :=
    writeAll_perm (by rw [map_fst_writesOf]; exact set.nodup) (hperm.map _)
  have hflat : writesOf (set'.entries.flatMap (derivedEntries set st)) = set'.entries.flatMap fun e => writesOf (derivedEntries set st e) :=
    List.map_flatMap
  rw [configsetM_eq st set' hr hn]
  simp only [Server.effect, hentries]
  rw [writeAll_append, writeAll_of_notMem, writesOf_append, writeAll_append, hset, hflat]
  intro v hv
  obtain ⟨k, hk, heq⟩ := List.mem_map.mp hv
  cases heq
  exact hkey hk

theorem configsetM_removed (hr : notArray remove = false) (hn : notArray notify = false) (hkey : key ∈ copyStrings remove) :
    (st.configsetM (some (some set)) remove notify).2.store key = none := by
  rw [configsetM_eq st set hr hn]
  simp only [Server.effect]
  rw [writeAll_append]
  refine writeAll_eq (List.mem_map.mpr ⟨key, hkey, rfl⟩) fun v hv => ?_
  obtain ⟨k, -, heq⟩ := List.mem_map.mp hv
  cases heq
  rfl

end

/-- The keys may be enumerated in any order exactly if no two of them disagree on an entry that follows from both and stays. -/
theorem setMultiple_order_iff (st : Server) (set : KeysToSet) (remove notify : Option Plist) :
    (∀ set' : KeysToSet, set'.entries.Perm set.entries →
        (st.configsetM (some (some set')) remove notify).2.store = (st.configsetM (some (some set)) remove notify).2.store) ↔
      (notArray remove = false → notArray notify = false → ∀ e ∈ set.entries, ∀ e' ∈ set.entries, ∀ key, key ∉ copyStrings remove →
        ∀ v v', (key, v) ∈ derivedEntries set st e → (key, v') ∈ derivedEntries set st e' → v = v') := by
  by_cases hargs : notArray remove = false ∧ notArray notify = false
  · obtain ⟨hr, hn⟩ := hargs
    simp only [hr, hn, forall_const]
    -- so the order matters exactly where that of what follows does
    have horder : (∀ set' : KeysToSet, set'.entries.Perm set.entries →
        (st.configsetM (some (some set')) remove notify).2.store = (st.configsetM (some (some set)) remove notify).2.store) ↔
        ∀ l : List (CFString × Plist), l.Perm set.entries → ∀ key, key ∉ copyStrings remove →
          writeAll (l.flatMap fun e => writesOf (derivedEntries set st e)) (writeAll (writesOf set.entries) st.store) key =
            writeAll (set.entries.flatMap fun e => writesOf (derivedEntries set st e)) (writeAll (writesOf set.entries) st.store) key := by
      constructor
      · intro h l hl key hkey
        have hnodup : (l.map Prod.fst).Nodup := (hl.map Prod.fst).nodup_iff.mpr set.nodup
        have hl' : (⟨l, hnodup⟩ : KeysToSet).entries.Perm set.entries := hl
        have hkept : (st.configsetM (some (some ⟨l, hnodup⟩)) remove notify).2.store key = _ := configsetM_kept hr hn hl' hkey
        have hkept' : (st.configsetM (some (some set)) remove notify).2.store key = _ :=
          configsetM_kept hr hn (List.Perm.refl set.entries) hkey
        exact hkept.symm.trans ((congrFun (h _ hl') key).trans hkept')
      · intro h set' hperm
        funext key
        by_cases hkey : key ∈ copyStrings remove
        · rw [configsetM_removed hr hn hkey, configsetM_removed hr hn hkey]
        · rw [configsetM_kept hr hn hperm hkey, configsetM_kept hr hn (List.Perm.refl set.entries) hkey, h set'.entries hperm key hkey]
    rw [horder, writeAll_flatMap_perm_iff (fun key => key ∉ copyStrings remove)]
    · refine forall₂_congr fun e _ => forall₂_congr fun e' _ => forall₂_congr fun key _ => ?_
      constructor
      · intro h v v' hv hv'
        exact Option.some.inj (h (some v) (some v') (mem_writesOf.mpr ⟨v, hv, rfl⟩) (mem_writesOf.mpr ⟨v', hv', rfl⟩))
      · intro h v v' hv hv'
        obtain ⟨value, hvalue, rfl⟩ := mem_writesOf.mp hv
        obtain ⟨value', hvalue', rfl⟩ := mem_writesOf.mp hv'
        rw [h value value' hvalue hvalue']
    · intro e _ key v v' hv hv'
      obtain ⟨value, hvalue, rfl⟩ := mem_writesOf.mp hv
      obtain ⟨value', hvalue', rfl⟩ := mem_writesOf.mp hv'
      rw [derivedEntries_unique hvalue hvalue']
  · have hsame : ∀ set' : KeysToSet, (st.configsetM (some (some set')) remove notify).2 = st := by
      intro set'
      unfold Server.configsetM
      split_ifs <;> simp_all
    simp only [hsame, implies_true, true_iff]
    exact fun hr hn => absurd ⟨hr, hn⟩ hargs

/-- Two services in the two orders. -/
def twoServices : KeysToSet := ⟨[serviceState "a" "en0", serviceState "b" "en1"], by simp [serviceState, copyServiceEntityKey, networkServiceEntity]⟩
def twoServicesReversed : KeysToSet := ⟨[serviceState "b" "en1", serviceState "a" "en0"], by simp [serviceState, copyServiceEntityKey, networkServiceEntity]⟩

/-- Which of two services becomes the primary one depends on the order. -/
theorem the_last_service_wins : twoServicesReversed.entries.Perm twoServices.entries ∧
    globalString (emptyServer.configsetM (some (some twoServices)) none none).2.store propPrimaryService = some "b".toList ∧
    globalString (emptyServer.configsetM (some (some twoServicesReversed)) none none).2.store propPrimaryService = some "a".toList :=
  ⟨List.Perm.swap _ _ _, by decide +kernel, by decide +kernel⟩

end Panthera.Configd
