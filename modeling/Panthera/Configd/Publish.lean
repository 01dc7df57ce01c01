/-
  Panthera.Configd.Publish — the network state that configd publishes itself
  (`panthera_configd.c`: `pending_link_state_is_active`,
  `refresh_network_state_if_needed`, `copy_pending_or_stored_*`,
  `publish_global_network_state_from_service`, `publish_global_network_state_from_pending_set`;
  `panthera_network_state_publisher.c`:
  `panthera_network_state_publish_dictionary`, `publish_setup_dhcp_dictionary`).

  After several keys were set at once, configd looks at each of them: one that holds a service's
  IPv4 state makes that service the primary one, in the global entries and in those of its
  interface. Apart from that, the first requests publish the state of the interface that has
  an address, if there is one.

  Which entries follow from one key, its value and the services' state is `publishEntry_eq`.
-/

import Panthera.Lib.Updates
import Panthera.Configd.Server

namespace Panthera.Configd

open Lib.Updates

/-! ## Properties -/

@[irreducible] def propInterfaceName : CFString := "InterfaceName".toList
@[irreducible] def propPrimaryInterface : CFString := "PrimaryInterface".toList
@[irreducible] def propPrimaryService : CFString := "PrimaryService".toList
@[irreducible] def propRouter : CFString := "Router".toList
@[irreducible] def propLinkActive : CFString := "Active".toList
@[irreducible] def linkStatusActive : CFString := "LinkStatusActive".toList
@[irreducible] def linkSuffix : CFString := "/Link".toList
@[irreducible] def interfacePrefix : CFString := "State:/Network/Interface/".toList

/-- A dictionary of these entries. -/
def dictionaryOf (entries : List (CFString × Plist)) : Dictionary := writeAll (entries.map fun e => (e.1, some e.2)) fun _ => none

def dictionaryBoolIsTrue (dict : Dictionary) (key : CFString) : Bool :=
  match dict key with
  | some (.boolean b) => b
  | _ => false

def pendingLinkStateIsActive (key : CFString) (value : Plist) : Bool :=
  match value with
  | .dictionary d =>
    interfacePrefix.isPrefixOf key && linkSuffix.isSuffixOf key && (dictionaryBoolIsTrue d propLinkActive || dictionaryBoolIsTrue d linkStatusActive)
  | _ => false

/-! ## The state of the primary interface -/

/-- configd's environment: `PANTHERA_CONFIGD_NETWORK_STATE_INTERNAL`, `PANTHERA_SC_NETWORK_ROUTER`,
`PANTHERA_SC_NETWORK_DNS`. -/
structure Env where
  internal : Bool
  router : Option CFString := none
  dns : Option CFString := none

def Env.routerText (env : Env) : CFString :=
  match env.router with
  | none | some [] => "10.0.2.2".toList
  | some text => text

def Env.dnsText (env : Env) : CFString :=
  match env.dns with
  | none | some [] => "10.0.2.3".toList
  | some text => text

structure InterfaceState where
  ifname : CFString
  address : CFString
  netmask : CFString

namespace InterfaceState

def service (i : InterfaceState) : CFString := "Panthera-".toList ++ i.ifname

def ipv4 (i : InterfaceState) : Dictionary :=
  dictionaryOf [("Addresses".toList, .array [.string i.address]), ("SubnetMasks".toList, .array [.string i.netmask]),
    (propInterfaceName, .string i.ifname)]

def globalIPv4 (env : Env) (i : InterfaceState) : Dictionary :=
  dictionaryOf [(propPrimaryInterface, .string i.ifname), (propPrimaryService, .string i.service), (propRouter, .string env.routerText)]

/-- `publish_setup_dhcp_dictionary`, as the entries it sets. -/
def setupEntries (i : InterfaceState) : List (CFString × Plist) :=
  [(networkServiceEntity setupDomain i.service entInterface,
      .dictionary (dictionaryOf [("DeviceName".toList, .string i.ifname), ("Type".toList, .string "Ethernet".toList)])),
    (networkServiceEntity setupDomain i.service entIPv4,
      .dictionary (dictionaryOf [("ConfigMethod".toList, .string "DHCP".toList)])),
    (networkGlobalEntity setupDomain entIPv4,
      .dictionary (dictionaryOf [("ServiceOrder".toList, .array [.string i.service])]))]

/-- `panthera_network_state_publish_dictionary`, as the entries it sets. -/
def entries (env : Env) (i : InterfaceState) : List (CFString × Plist) :=
  [(networkInterfaces stateDomain, .dictionary (dictionaryOf [("Interfaces".toList, .array [.string i.ifname])])),
    (networkInterfaceEntity stateDomain i.ifname entIPv4, .dictionary i.ipv4),
    (copyServiceEntityKey i.service entIPv4, .dictionary i.ipv4),
    (globalIPv4Key, .dictionary (i.globalIPv4 env)),
    (globalDNSKey, .dictionary (dictionaryOf [("ServerAddresses".toList, .array [.string env.dnsText])]))] ++ i.setupEntries

end InterfaceState

/-! ## Publishing -/

/-- The argument of `CFDictionaryGetKeysAndValues`: keys to set, in the order of their enumeration. -/
structure KeysToSet where
  entries : List (CFString × Plist)
  nodup : (entries.map Prod.fst).Nodup

/-- `CFDictionaryGetValue` -/
def KeysToSet.value (set : KeysToSet) (key : CFString) : Option Plist := (set.entries.find? (·.1 = key)).map (·.2)

/-- The interface of an IPv4 entity (both lookups of the source are for `InterfaceName`). -/
def interfaceName (ipv4 : Dictionary) : Option CFString := (ipv4 propInterfaceName).bind Plist.string?

/-- The global entry of a service. -/
def globalIPv4 (serviceID ifname : CFString) (ipv4 : Dictionary) : Dictionary :=
  let d := dictionaryOf [(propPrimaryInterface, .string ifname), (propPrimaryService, .string serviceID)]
  match ipv4 propRouter with
  | some router => Function.update d propRouter (some router)
  | none => d

/-- A string of the global entry. -/
def globalString (store : Dictionary) (prop : CFString) : Option CFString :=
  (((store globalIPv4Key).bind Plist.dictionary?).bind fun d => d prop).bind Plist.string?

namespace Server

/-- The publisher writes to the store itself. -/
def publishEntries (entries : List (CFString × Plist)) (st : Server) : Server :=
  { st with store := writeAll (entries.map fun e => (e.1, some e.2)) st.store, written := st.written ++ entries.map Prod.fst }

def refreshNetworkStateIfNeeded (env : Env) (interface? : Option InterfaceState) (st : Server) : Server :=
  if !env.internal || st.published then st
  else
    match interface? with
    | none => st
    | some i => { st.publishEntries (i.entries env) with inst := st.inst + 1, published := true }.notifyLaunchdNetworkUp

def copyPendingOrStoredDictionary (pending : KeysToSet) (key : CFString) (st : Server) : Option Dictionary :=
  ((pending.value key).or (st.store key)).bind Plist.dictionary?

def copyPendingOrStoredServiceEntity (pending : KeysToSet) (serviceID entity : CFString) (st : Server) : Option Dictionary :=
  st.copyPendingOrStoredDictionary pending (copyServiceEntityKey serviceID entity)

def copyPendingOrStoredIpconfigurationEntity (pending : KeysToSet) (serviceID entity : CFString) (st : Server) : Option Dictionary :=
  (st.copyPendingOrStoredDictionary pending (ipconfigurationKey serviceID)).bind fun d => (d entity).bind Plist.dictionary?

def publishGlobalNetworkStateFromService (serviceID : CFString) (ipv4 dns : Option Dictionary) (st : Server) : Server :=
  match ipv4 with
  | none => st
  | some ipv4 =>
    match interfaceName ipv4 with
    | none => st
    | some ifname =>
      let st := st.setValueForKey (networkInterfaceEntity stateDomain ifname entIPv4) (.dictionary ipv4)
      let st := (st.setValueForKey globalIPv4Key (.dictionary (globalIPv4 serviceID ifname ipv4))).notifyLaunchdNetworkUp
      match dns with
      | none => st
      | some dns => st.setValueForKey globalDNSKey (.dictionary dns)

/-- The part of the loop of `publish_global_network_state_from_pending_set` that is about services. -/
def publishServiceOf (set : KeysToSet) (e : CFString × Plist) (st : Server) : Server :=
  match copyServiceEntityId e.1 entIPv4 with
  | some serviceID =>
    let ipv4 :=
      match e.2 with
      | .dictionary d => some d
      | _ => st.copyPendingOrStoredServiceEntity set serviceID entIPv4
    st.publishGlobalNetworkStateFromService serviceID ipv4 (st.copyPendingOrStoredServiceEntity set serviceID entDNS)
  | none =>
    match copyIpconfigurationServiceId e.1 with
    | none => st
    | some serviceID =>
      st.publishGlobalNetworkStateFromService serviceID (st.copyPendingOrStoredIpconfigurationEntity set serviceID entIPv4)
        (st.copyPendingOrStoredIpconfigurationEntity set serviceID entDNS)

/-- One turn of that loop. -/
def publishEntry (set : KeysToSet) (e : CFString × Plist) (st : Server) : Server :=
  let st := if pendingLinkStateIsActive e.1 e.2 then st.notifyLaunchdNetworkUp else st
  st.publishServiceOf set e

def publishGlobalNetworkStateFromPendingSet (set : KeysToSet) (st : Server) : Server :=
  set.entries.foldl (fun st e => st.publishEntry set e) st

end Server

/-! ## What is published -/

/-- A service's state, as it is published. -/
structure Publication where
  service : CFString
  ifname : CFString
  ipv4 : Dictionary
  dns : Option Dictionary

namespace Publication

/-- The entries that follow from a service's state. -/
def entries (p : Publication) : List (CFString × Plist) :=
  [(networkInterfaceEntity stateDomain p.ifname entIPv4, .dictionary p.ipv4),
    (globalIPv4Key, .dictionary (globalIPv4 p.service p.ifname p.ipv4))] ++ p.dns.toList.map fun d => (globalDNSKey, .dictionary d)

def of (service : CFString) (ipv4 dns : Option Dictionary) : Option Publication :=
  ipv4.bind fun d => (interfaceName d).map fun ifname => ⟨service, ifname, d, dns⟩

theorem derived {p : Publication} {e : CFString × Plist} (he : e ∈ p.entries) : Derived e.1 := by
  simp only [entries, List.cons_append, List.nil_append, List.mem_cons, List.mem_map] at he
  rcases he with rfl | rfl | ⟨d, -, rfl⟩
  · exact .inl ⟨_, _, rfl⟩
  · exact .inr ⟨_, rfl⟩
  · exact .inr ⟨_, rfl⟩

/-- Its entries have different keys. -/
theorem entries_nodup (p : Publication) : (p.entries.map Prod.fst).Nodup := by
  have hIPv4 : networkInterfaceEntity stateDomain p.ifname entIPv4 ≠ globalIPv4Key := interface_ne_global _ _ _
  have hDNS : networkInterfaceEntity stateDomain p.ifname entIPv4 ≠ globalDNSKey := interface_ne_global _ _ _
  cases hdns : p.dns <;> simp [entries, hdns, hIPv4, hDNS, globalIPv4Key_ne_globalDNSKey]

end Publication

/-- As the store is written. -/
def writesOf (entries : List (CFString × Plist)) : List (CFString × Option Plist) := entries.map fun e => (e.1, some e.2)

@[simp] theorem writesOf_append (l l' : List (CFString × Plist)) : writesOf (l ++ l') = writesOf l ++ writesOf l' := List.map_append

@[simp] theorem map_fst_writesOf (l : List (CFString × Plist)) : (writesOf l).map Prod.fst = l.map Prod.fst := by
  simp [writesOf, Function.comp_def]

@[simp] theorem mem_writesOf {l : List (CFString × Plist)} {k : CFString} {v : Option Plist} :
    (k, v) ∈ writesOf l ↔ ∃ value, (k, value) ∈ l ∧ v = some value := by
  simp only [writesOf, List.mem_map, Prod.mk.injEq, Prod.exists]
  constructor
  · rintro ⟨k', value, h, rfl, rfl⟩
    exact ⟨value, h, rfl⟩
  · rintro ⟨value, h, rfl⟩
    exact ⟨k, value, h, rfl, rfl⟩

theorem writeAll_writesOf {l : List (CFString × Plist)} {k : CFString} {v : Plist} {f : Dictionary} (h : (k, v) ∈ l)
    (huniq : ∀ v', (k, v') ∈ l → v' = v) : writeAll (writesOf l) f k = some v := by
  refine writeAll_eq (mem_writesOf.mpr ⟨v, h, rfl⟩) fun v' hv' => ?_
  obtain ⟨value, hvalue, rfl⟩ := mem_writesOf.mp hv'
  rw [huniq value hvalue]

/-- Entries with different keys change nothing exactly if they are there. -/
theorem writeAll_writesOf_eq_self_iff {l : List (CFString × Plist)} (hunique : ∀ {k v v'}, (k, v) ∈ l → (k, v') ∈ l → v = v') (f : Dictionary) :
    writeAll (writesOf l) f = f ↔ ∀ e ∈ l, f e.1 = some e.2 := by
  have hvalue : ∀ {k v}, (k, v) ∈ l → writeAll (writesOf l) f k = some v := fun hv => writeAll_writesOf hv fun _ hv' => hunique hv' hv
  constructor
  · intro h e he
    rw [← hvalue he, h]
  · intro h
    funext k
    by_cases hk : ∃ v, (k, v) ∈ l
    · obtain ⟨v, hv⟩ := hk
      rw [hvalue hv, h _ hv]
    · refine writeAll_of_notMem fun v hv => hk ?_
      obtain ⟨value, hvalue, -⟩ := mem_writesOf.mp hv
      exact ⟨value, hvalue⟩

/-- What the services' state in the store and the keys to set make of one of these keys. -/
def publication (set : KeysToSet) (st : Server) (e : CFString × Plist) : Option Publication :=
  match copyServiceEntityId e.1 entIPv4 with
  | some id =>
    let ipv4 :=
      match e.2 with
      | .dictionary d => some d
      | _ => st.copyPendingOrStoredServiceEntity set id entIPv4
    Publication.of id ipv4 (st.copyPendingOrStoredServiceEntity set id entDNS)
  | none =>
    (copyIpconfigurationServiceId e.1).bind fun id =>
      Publication.of id (st.copyPendingOrStoredIpconfigurationEntity set id entIPv4) (st.copyPendingOrStoredIpconfigurationEntity set id entDNS)

def derivedEntries (set : KeysToSet) (st : Server) (e : CFString × Plist) : List (CFString × Plist) :=
  (publication set st e).toList.flatMap Publication.entries

/-- The key says that the network is up. -/
def announces (set : KeysToSet) (st : Server) (e : CFString × Plist) : Bool :=
  pendingLinkStateIsActive e.1 e.2 || (publication set st e).isSome

namespace Server

variable (st : Server)

theorem publishGlobalNetworkStateFromService_eq (id : CFString) (ipv4 dns : Option Dictionary) :
    st.publishGlobalNetworkStateFromService id ipv4 dns =
      let entries := (Publication.of id ipv4 dns).toList.flatMap Publication.entries
      st.effect (writesOf entries) (entries.map Prod.fst) (Publication.of id ipv4 dns).isSome := by
  unfold publishGlobalNetworkStateFromService Publication.of
  cases ipv4 with
  | none => exact st.effect_nil.symm
  | some ipv4 =>
    cases hname : interfaceName ipv4 with
    | none => simpa [hname, writesOf] using st.effect_nil.symm
    | some ifname =>
      cases dns <;>
        simp [hname, setValueForKey_eq, notifyLaunchdNetworkUp_eq, effect_effect, Publication.entries, writesOf]

/-- Two servers with the same services' state. -/
def SameSources (st st' : Server) : Prop := ∀ key, Source key → st'.store key = st.store key

theorem publication_congr {set : KeysToSet} {e : CFString × Plist} {st st' : Server} (h : SameSources st st') :
    publication set st' e = publication set st e := by
  have hservice : ∀ id entity, st'.copyPendingOrStoredServiceEntity set id entity = st.copyPendingOrStoredServiceEntity set id entity := by
    intro id entity
    rw [copyPendingOrStoredServiceEntity, copyPendingOrStoredDictionary, h _ (.inl ⟨id, entity, rfl⟩)]
    rfl
  have hplugin : ∀ id entity, st'.copyPendingOrStoredIpconfigurationEntity set id entity = st.copyPendingOrStoredIpconfigurationEntity set id entity := by
    intro id entity
    rw [copyPendingOrStoredIpconfigurationEntity, copyPendingOrStoredDictionary, h _ (.inr ⟨id, rfl⟩)]
    rfl
  simp only [publication, hservice, hplugin]

variable (set : KeysToSet)

theorem publishServiceOf_eq (e : CFString × Plist) :
    st.publishServiceOf set e =
      st.effect (writesOf (derivedEntries set st e)) ((derivedEntries set st e).map Prod.fst) (publication set st e).isSome := by
  unfold publishServiceOf derivedEntries publication
  split
  · exact publishGlobalNetworkStateFromService_eq st _ _ _
  · split
    · rename_i h
      rw [h]
      exact st.effect_nil.symm
    · rename_i h
      rw [h]
      exact publishGlobalNetworkStateFromService_eq st _ _ _

theorem publishEntry_eq (e : CFString × Plist) :
    st.publishEntry set e =
      st.effect (writesOf (derivedEntries set st e)) ((derivedEntries set st e).map Prod.fst) (announces set st e) := by
  -- the link's state changes no service's
  have hlink : (if pendingLinkStateIsActive e.1 e.2 then st.notifyLaunchdNetworkUp else st) =
      st.effect [] [] (pendingLinkStateIsActive e.1 e.2) := by
    cases pendingLinkStateIsActive e.1 e.2
    · exact st.effect_nil.symm
    · exact st.notifyLaunchdNetworkUp_eq
  have hsame : SameSources st (st.effect [] [] (pendingLinkStateIsActive e.1 e.2)) := fun _ _ => rfl
  have hpublication : publication set _ e = publication set st e := publication_congr hsame
  rw [publishEntry, hlink, publishServiceOf_eq, derivedEntries, hpublication, effect_effect]
  rfl

/-- What follows from the keys to set changes no service's state. -/
theorem sameSources_effect {ws : List (CFString × Option Plist)} (hws : ∀ w ∈ ws, Derived w.1) (ns : List CFString) (up : Bool) :
    SameSources st (st.effect ws ns up) :=
  fun _ hkey => writeAll_of_notMem fun _ hv => (hws _ hv).ne_source hkey rfl

theorem derived_of_mem_derivedEntries {set : KeysToSet} {e w : CFString × Plist} (hw : w ∈ derivedEntries set st e) : Derived w.1 := by
  obtain ⟨p, -, hw⟩ := List.mem_flatMap.mp hw
  exact p.derived hw

/-- All that follows from the keys to set. -/
theorem publishGlobalNetworkStateFromPendingSet_eq :
    st.publishGlobalNetworkStateFromPendingSet set =
      let entries := set.entries.flatMap (derivedEntries set st)
      st.effect (writesOf entries) (entries.map Prod.fst) (set.entries.any (announces set st)) := by
  -- each turn finds the services' state as it was before the loop
  have hloop : ∀ (l : List (CFString × Plist)) (st' : Server), SameSources st st' →
      l.foldl (fun st e => st.publishEntry set e) st' =
        st'.effect (writesOf (l.flatMap (derivedEntries set st))) ((l.flatMap (derivedEntries set st)).map Prod.fst) (l.any (announces set st)) := by
    intro l
    induction l with
    | nil => exact fun st' _ => st'.effect_nil.symm
    | cons e l ih =>
      intro st' hsame
      have hderived : derivedEntries set st' e = derivedEntries set st e := by rw [derivedEntries, publication_congr hsame, derivedEntries]
      have hannounces : announces set st' e = announces set st e := by rw [announces, publication_congr hsame, announces]
      rw [List.foldl_cons, publishEntry_eq, hderived, hannounces, ih, effect_effect, List.flatMap_cons, writesOf_append, List.map_append, List.any_cons]
      intro key hkey
      rw [← hsame key hkey]
      refine sameSources_effect st' (fun w hw => ?_) _ _ key hkey
      obtain ⟨value, hvalue, -⟩ := mem_writesOf.mp hw
      exact st.derived_of_mem_derivedEntries hvalue
  exact hloop set.entries st fun _ _ => rfl

end Server

end Panthera.Configd
