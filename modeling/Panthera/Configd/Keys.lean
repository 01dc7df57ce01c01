/-
  Panthera.Configd.Keys — configd's keys and patterns
  (`panthera_configd.c`: `string_matches_exact_or_prefix`,
  `match_component_regex_cstr`, `string_matches_store_pattern`, `copy_service_entity_id`,
  `copy_service_entity_key`, `copy_ipconfiguration_service_id`).

  A string is the list of its characters; comparisons are literal. SystemConfiguration makes
  the keys of the network entities by joining their components with slashes.

  The keys that configd derives (of interfaces, and the global ones) and those that it derives
  them from (of services) differ within their first sixteen characters, whatever the names in them.
-/

import Mathlib

namespace Panthera.Configd

/-- A CFString. -/
abbrev CFString := List Char

/-! ## Keys -/

@[irreducible] def stateDomain : CFString := "State:".toList
@[irreducible] def setupDomain : CFString := "Setup:".toList

@[irreducible] def networkService : CFString := "/Network/Service/".toList
@[irreducible] def networkInterface : CFString := "/Network/Interface/".toList
@[irreducible] def networkGlobal : CFString := "/Network/Global/".toList

/-- `kSCEntNetIPv4`, `kSCEntNetDNS`, `kSCEntNetInterface` -/
@[irreducible] def entIPv4 : CFString := "IPv4".toList
@[irreducible] def entDNS : CFString := "DNS".toList
@[irreducible] def entInterface : CFString := "Interface".toList

/-- `SCDynamicStoreKeyCreateNetworkServiceEntity` -/
def networkServiceEntity (domain service entity : CFString) : CFString :=
  domain ++ (networkService ++ (service ++ '/' :: entity))

/-- `SCDynamicStoreKeyCreateNetworkInterfaceEntity` -/
def networkInterfaceEntity (domain name entity : CFString) : CFString :=
  domain ++ (networkInterface ++ (name ++ '/' :: entity))

/-- `SCDynamicStoreKeyCreateNetworkGlobalEntity` -/
def networkGlobalEntity (domain entity : CFString) : CFString := domain ++ (networkGlobal ++ entity)

/-- `SCDynamicStoreKeyCreateNetworkInterface` -/
def networkInterfaces (domain : CFString) : CFString := domain ++ networkInterface.dropLast

def globalIPv4Key : CFString := networkGlobalEntity stateDomain entIPv4

def globalDNSKey : CFString := networkGlobalEntity stateDomain entDNS

@[irreducible] def servicePrefix : CFString := "State:/Network/Service/".toList
@[irreducible] def pluginPrefix : CFString := "Plugin:IPConfigurationService:".toList

/-- The service of a key `State:/Network/Service/<id>/<entity>`. -/
def copyServiceEntityId (key entity : CFString) : Option CFString :=
  let suffix := '/' :: entity
  if servicePrefix.isPrefixOf key && suffix.isSuffixOf key && decide (servicePrefix.length + suffix.length < key.length) then
    some ((key.drop servicePrefix.length).take (key.length - servicePrefix.length - suffix.length))
  else none

def copyServiceEntityKey (serviceID entity : CFString) : CFString := networkServiceEntity stateDomain serviceID entity

def ipconfigurationKey (serviceID : CFString) : CFString := pluginPrefix ++ serviceID

/-- The service of a key `Plugin:IPConfigurationService:<id>`. -/
def copyIpconfigurationServiceId (key : CFString) : Option CFString :=
  if !pluginPrefix.isPrefixOf key then none
  else if key.length ≤ pluginPrefix.length then none
  else some (key.drop pluginPrefix.length)

/-! ## Patterns -/

/-- No pattern, or an empty one, matches everything. -/
def stringMatchesExactOrPrefix (key : CFString) (pattern : Option CFString) : Bool :=
  match pattern with
  | none => true
  | some pattern =>
    if pattern.length = 0 then true
    else if key = pattern then true
    else if ['/'].isSuffixOf pattern then pattern.isPrefixOf key
    else false

/-- `[^/]+` in the pattern takes a whole component. -/
def matchComponentRegexCstr (key : List Char) : (pattern : List Char) → Bool
  | '[' :: '^' :: '/' :: ']' :: '+' :: pattern =>
    if key.head? = none ∨ key.head? = some '/' then false
    else matchComponentRegexCstr (key.dropWhile (· ≠ '/')) pattern
  | c :: pattern =>
    if key.head? ≠ some c then false
    else matchComponentRegexCstr key.tail pattern
  | [] => key.isEmpty

/-- `CFStringGetCString` to a buffer of `size` bytes, as the functions of C read it. -/
def getCString (s : CFString) (size : Nat) : Option (List Char) :=
  if (s.map Char.utf8Size).sum < size then some (s.takeWhile (· ≠ '\x00')) else none

def regexToken : CFString := ['[', '^', '/', ']', '+']

def stringMatchesStorePattern (key pattern : CFString) : Bool :=
  if stringMatchesExactOrPrefix key (some pattern) then true
  else if ¬ regexToken <:+: pattern then false
  else
    match getCString key 512, getCString pattern 512 with
    | some key, some pattern => matchComponentRegexCstr key pattern
    | _, _ => false

/-! ## What the keys tell -/

/-- The literal parts that keys begin with: each has sixteen characters at least, and they differ in these. -/
theorem key_heads : servicePrefix = stateDomain ++ networkService ∧
    (16 ≤ (stateDomain ++ networkService).length ∧ 16 ≤ pluginPrefix.length ∧
      16 ≤ (stateDomain ++ networkInterface).length ∧ 16 ≤ (stateDomain ++ networkGlobal).length) ∧
    ((stateDomain ++ networkInterface).take 16 ≠ (stateDomain ++ networkService).take 16 ∧
      (stateDomain ++ networkGlobal).take 16 ≠ (stateDomain ++ networkService).take 16 ∧
      (stateDomain ++ networkInterface).take 16 ≠ pluginPrefix.take 16 ∧ (stateDomain ++ networkGlobal).take 16 ≠ pluginPrefix.take 16 ∧
      (stateDomain ++ networkInterface).take 16 ≠ (stateDomain ++ networkGlobal).take 16) ∧ globalIPv4Key ≠ globalDNSKey := by
  decide +kernel

theorem servicePrefix_eq : servicePrefix = stateDomain ++ networkService := key_heads.1

theorem copyServiceEntityKey_eq (id entity : CFString) : copyServiceEntityKey id entity = servicePrefix ++ (id ++ '/' :: entity) := by
  rw [copyServiceEntityKey, networkServiceEntity, servicePrefix_eq, List.append_assoc]

variable {key : CFString}

/-- The service of a key is read from it: the key is that service's. -/
theorem copyServiceEntityId_eq_some {entity id : CFString} :
    copyServiceEntityId key entity = some id ↔ key = copyServiceEntityKey id entity ∧ id ≠ [] := by
  rw [copyServiceEntityKey_eq]
  constructor
  · intro h
    simp only [copyServiceEntityId, Option.ite_none_right_eq_some, Bool.and_eq_true, List.isPrefixOf_iff_prefix,
      List.isSuffixOf_iff_suffix, decide_eq_true_eq, Option.some.injEq] at h
    obtain ⟨⟨⟨⟨rest, rfl⟩, hsuffix⟩, hlen⟩, rfl⟩ := h
    rw [List.length_append, Nat.add_lt_add_iff_left] at hlen
    obtain ⟨id, rfl⟩ := List.suffix_of_suffix_length_le hsuffix (List.suffix_append _ _) (Nat.le_of_lt hlen)
    have hid : ((servicePrefix ++ (id ++ '/' :: entity)).drop servicePrefix.length).take
        ((servicePrefix ++ (id ++ '/' :: entity)).length - servicePrefix.length - ('/' :: entity).length) = id := by
      rw [List.drop_left, List.length_append, List.length_append, Nat.add_sub_cancel_left, Nat.add_sub_cancel, List.take_left]
    rw [hid]
    refine ⟨rfl, ?_⟩
    rintro rfl
    simp at hlen
  · rintro ⟨rfl, hid⟩
    have hlen : 0 < id.length := List.length_pos_iff.mpr hid
    have hsuffix : ('/' :: entity).isSuffixOf (servicePrefix ++ (id ++ '/' :: entity)) := by
      rw [List.isSuffixOf_iff_suffix]
      exact (List.suffix_append _ _).trans (List.suffix_append _ _)
    rw [copyServiceEntityId, if_pos]
    · rw [List.drop_left, List.length_append, List.length_append, Nat.add_sub_cancel_left, Nat.add_sub_cancel, List.take_left]
    · simp only [Bool.and_eq_true, List.isPrefixOf_iff_prefix, List.prefix_append, hsuffix, decide_eq_true_eq, List.length_append,
        true_and, List.length_cons]
      omega

theorem copyIpconfigurationServiceId_eq_some {id : CFString} :
    copyIpconfigurationServiceId key = some id ↔ key = ipconfigurationKey id ∧ id ≠ [] := by
  rw [ipconfigurationKey, copyIpconfigurationServiceId]
  constructor
  · intro h
    simp only [Option.ite_none_left_eq_some, Bool.not_eq_eq_eq_not, Bool.not_true, Bool.not_eq_false,
      List.isPrefixOf_iff_prefix, Nat.not_le, Option.some.injEq] at h
    obtain ⟨⟨rest, rfl⟩, hlen, rfl⟩ := h
    rw [List.drop_left]
    refine ⟨rfl, ?_⟩
    rintro rfl
    simp at hlen
  · rintro ⟨rfl, hid⟩
    have hlen : 0 < id.length := List.length_pos_iff.mpr hid
    have hpre : pluginPrefix.isPrefixOf (pluginPrefix ++ id) = true := by
      rw [List.isPrefixOf_iff_prefix]
      exact List.prefix_append _ _
    rw [hpre, if_neg (by simp), if_neg (by rw [List.length_append]; omega), List.drop_left]

/-! ## Keys of different kinds differ -/

/-- Where configd finds a service's state: `State:/Network/Service/…` and `Plugin:IPConfigurationService:…`. -/
def Source (key : CFString) : Prop := (∃ id entity, key = copyServiceEntityKey id entity) ∨ ∃ id, key = ipconfigurationKey id

/-- What it derives from a service's state: `State:/Network/Interface/…` and `State:/Network/Global/…`. -/
def Derived (key : CFString) : Prop :=
  (∃ name entity, key = networkInterfaceEntity stateDomain name entity) ∨ ∃ entity, key = networkGlobalEntity stateDomain entity

theorem take_head {p : CFString} (hp : 16 ≤ p.length) (rest : CFString) : (p ++ rest).take 16 = p.take 16 :=
  List.take_append_of_le_length hp

theorem take_service (domain id entity : CFString) (h : 16 ≤ (domain ++ networkService).length) :
    (networkServiceEntity domain id entity).take 16 = (domain ++ networkService).take 16 := by
  rw [networkServiceEntity, ← List.append_assoc, take_head h]

theorem take_interface (name entity : CFString) :
    (networkInterfaceEntity stateDomain name entity).take 16 = (stateDomain ++ networkInterface).take 16 := by
  obtain ⟨-, ⟨-, -, hlen, -⟩, -⟩ := key_heads
  rw [networkInterfaceEntity, ← List.append_assoc, take_head hlen]

theorem take_global (domain entity : CFString) (h : 16 ≤ (domain ++ networkGlobal).length) :
    (networkGlobalEntity domain entity).take 16 = (domain ++ networkGlobal).take 16 := by
  rw [networkGlobalEntity, ← List.append_assoc, take_head h]

theorem Source.take (h : Source key) :
    key.take 16 = (stateDomain ++ networkService).take 16 ∨ key.take 16 = pluginPrefix.take 16 := by
  obtain ⟨-, ⟨hservice, hplugin, -, -⟩, -⟩ := key_heads
  rcases h with ⟨id, entity, rfl⟩ | ⟨id, rfl⟩
  · exact .inl (take_service _ _ _ hservice)
  · exact .inr (take_head hplugin id)

theorem Derived.take (h : Derived key) :
    key.take 16 = (stateDomain ++ networkInterface).take 16 ∨ key.take 16 = (stateDomain ++ networkGlobal).take 16 := by
  rcases h with ⟨name, entity, rfl⟩ | ⟨entity, rfl⟩
  · exact .inl (take_interface _ _)
  · exact .inr (take_global _ _ key_heads.2.1.2.2.2)

theorem Derived.ne_source {key' : CFString} (h : Derived key) (h' : Source key') : key ≠ key' := by
  rintro rfl
  obtain ⟨-, -, ⟨hinterface, hglobal, hinterface', hglobal', -⟩, -⟩ := key_heads
  rcases h'.take with hs | hs
  · rcases h.take with hd | hd
    · exact hinterface (hd.symm.trans hs)
    · exact hglobal (hd.symm.trans hs)
  · rcases h.take with hd | hd
    · exact hinterface' (hd.symm.trans hs)
    · exact hglobal' (hd.symm.trans hs)

theorem ne_of_take {key' : CFString} (h : key.take 16 ≠ key'.take 16) : key ≠ key' := fun heq => h (congrArg _ heq)

theorem interface_ne_global (name entity entity' : CFString) :
    networkInterfaceEntity stateDomain name entity ≠ networkGlobalEntity stateDomain entity' := by
  obtain ⟨-, ⟨-, -, -, hlen⟩, ⟨-, -, -, -, hne⟩, -⟩ := key_heads
  refine ne_of_take ?_
  rw [take_interface, take_global _ _ hlen]
  exact hne

theorem globalIPv4Key_ne_globalDNSKey : globalIPv4Key ≠ globalDNSKey := key_heads.2.2.2

end Panthera.Configd
