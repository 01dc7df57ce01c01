/-
  Panthera.Configd.Primary — is the primary service still there?

  `State:/Network/Global/IPv4` names a service and its interface. It is derived from that service's
  IPv4 entry, and nothing takes it back: a request that removes or replaces the entry leaves
  it as it is, unless it publishes another service.

  Proved over every run of calls that starts without the global entry and does not set it directly:
  the entry always names a service that has an IPv4 entry with that interface exactly if
  each request that writes leaves one to the service that is the primary one after it
  (`global_consistent_iff`).
-/

import Panthera.Configd.Multiple
import Panthera.Configd.Notifications

namespace Panthera.Configd

open Lib.Updates

/-! ## Services in the store -/

/-- `State:/Network/Service/<id>/IPv4` -/
def serviceIPv4 (store : Dictionary) (id : CFString) : Option Dictionary := (store (copyServiceEntityKey id entIPv4)).bind Plist.dictionary?

/-- The IPv4 entry of `Plugin:IPConfigurationService:<id>`. -/
def pluginIPv4 (store : Dictionary) (id : CFString) : Option Dictionary :=
  ((store (ipconfigurationKey id)).bind Plist.dictionary?).bind fun d => (d entIPv4).bind Plist.dictionary?

/-- The service has an IPv4 entry with the interface. -/
def HasIPv4 (store : Dictionary) (id ifname : CFString) : Prop :=
  (serviceIPv4 store id).bind interfaceName = some ifname ∨ (pluginIPv4 store id).bind interfaceName = some ifname

/-- The global entry names the service and the interface. -/
def NamesPrimary (store : Dictionary) (id ifname : CFString) : Prop :=
  globalString store propPrimaryService = some id ∧ globalString store propPrimaryInterface = some ifname

/-- If there is a global entry, its service has an IPv4 entry with its interface. -/
def Consistent (store : Dictionary) : Prop :=
  (store globalIPv4Key).isSome → ∃ id ifname, NamesPrimary store id ifname ∧ HasIPv4 store id ifname

/-! ## What a request does, in its parts -/

/-- The entries that a request sets, the services it publishes and the keys it removes, in this order. -/
structure Plan where
  entries : List (CFString × Plist) := []
  published : List Publication := []
  removed : List CFString := []

namespace Plan

def multiple (set : Option KeysToSet) (removed : List CFString) (st : Server) : Plan :=
  match set with
  | none => ⟨[], [], removed⟩
  | some set => ⟨set.entries, set.entries.filterMap (publication set st), removed⟩

/-- What the request says itself. -/
def given (p : Plan) : List (CFString × Option Plist) := writesOf p.entries ++ p.removed.map fun key => (key, none)

def writes (p : Plan) : List (CFString × Option Plist) :=
  writesOf (p.entries ++ p.published.flatMap Publication.entries) ++ p.removed.map fun key => (key, none)

/-- The service that is the primary one after the request: the last one it publishes, or the one before. -/
def Primary (p : Plan) (store : Dictionary) (id ifname : CFString) : Prop :=
  match p.published.getLast? with
  | some q => q.service = id ∧ q.ifname = ifname
  | none => NamesPrimary store id ifname

end Plan

namespace Write

def plan (st : Server) : Write → Plan
  | configadd (some key) (some value) => if (st.store key).isSome then {} else { entries := [(key, value)] }
  | configset (some key) (some value) => { entries := [(key, value)] }
  | storeSetValue (some key) (some value) => { entries := [(key, value)] }
  | configremove (some key) => if (st.store key).isNone then {} else { removed := [key] }
  | configsetM data remove notify =>
    if notDictionary data || notArray remove || notArray notify then {} else .multiple data.join (copyStrings remove) st
  | storeSetMultiple keysToSet keysToRemove _ =>
    if notDictionary keysToSet then {}
    else if notArray keysToRemove then .multiple keysToSet.join [] st
    else .multiple keysToSet.join (copyStrings keysToRemove) st
  | _ => {}

/-- The keys that a request sets itself. -/
def sets : Write → List CFString
  | configadd key _ | configset key _ | storeSetValue key _ => key.toList
  | configsetM data _ _ | storeSetMultiple data _ _ => data.join.toList.flatMap fun set => set.entries.map Prod.fst
  | configremove _ | confignotify _ => []

/-- The request leaves the service that is the primary one after it an IPv4 entry with its interface. -/
def Keeps (st : Server) (w : Write) : Prop :=
  globalIPv4Key ∉ (w.plan st).removed → ∀ id ifname, (w.plan st).Primary st.store id ifname →
    HasIPv4 (writeAll (w.plan st).given st.store) id ifname

theorem multiple_writes (set : Option KeysToSet) (st : Server) (remove : List CFString) :
    writesOf (entriesSet set st) ++ remove.map (fun key => (key, none)) = (Plan.multiple set remove st).writes := by
  cases set with
  | none => rfl
  | some set =>
    have hentries : set.entries.flatMap (derivedEntries set (st.setAll set)) =
        (set.entries.filterMap (publication set st)).flatMap Publication.entries := by
      rw [funext (derivedEntries_setAll set st), List.filterMap_eq_flatMap_toList, List.flatMap_assoc]
      rfl
    rw [entriesSet, hentries]
    rfl

theorem effect_writes (w : Write) (st : Server) : (w.effect st).writes = (w.plan st).writes := by
  cases w with
  | configadd key data =>
    rcases key with _ | key <;> rcases data with _ | value
    · rfl
    · rfl
    · rfl
    · simp only [Write.effect, Write.plan]
      split <;> rfl
  | configset key data => rcases key with _ | key <;> rcases data with _ | value <;> rfl
  | storeSetValue key value => rcases key with _ | key <;> rcases value with _ | value <;> rfl
  | confignotify key => rfl
  | configremove key =>
    cases key with
    | none => rfl
    | some key =>
      simp only [Write.effect, Write.plan]
      split <;> rfl
  | configsetM data remove notify =>
    simp only [Write.effect, Write.plan]
    split
    · rfl
    · exact multiple_writes _ _ _
  | storeSetMultiple keysToSet keysToRemove keysToNotify =>
    simp only [Write.effect, Write.plan]
    split
    · rfl
    · split
      · exact (List.append_nil _).symm.trans (multiple_writes _ _ [])
      · exact multiple_writes _ _ _

theorem plan_entries {w : Write} {st : Server} {e : CFString × Plist} (h : e ∈ (w.plan st).entries) : e.1 ∈ w.sets := by
  have hone : ∀ {e'}, e ∈ [e'] → e.1 ∈ [e'.1] := fun h => List.mem_singleton.mpr (congrArg Prod.fst (List.mem_singleton.mp h))
  have hmultiple : ∀ {set : Option KeysToSet} {removed : List CFString}, e ∈ (Plan.multiple set removed st).entries →
      e.1 ∈ set.toList.flatMap fun set => set.entries.map Prod.fst := by
    intro set removed he
    cases set with
    | none => cases he
    | some set => simpa using ⟨e.2, he⟩
  unfold Write.plan at h
  split at h
  · split at h
    · cases h
    · exact hone h
  · exact hone h
  · exact hone h
  · split at h <;> cases h
  · split at h
    · cases h
    · exact hmultiple h
  · split at h
    · cases h
    · split at h <;> exact hmultiple h
  · cases h

end Write

/-! ## The global entry -/

theorem globalProperties_ne : propPrimaryService ≠ propRouter ∧ propPrimaryInterface ≠ propRouter ∧
    propPrimaryInterface ≠ propPrimaryService := by
  simp [propPrimaryService, propPrimaryInterface, propRouter]

theorem globalIPv4_names (id ifname : CFString) (ipv4 : Dictionary) :
    globalIPv4 id ifname ipv4 propPrimaryService = some (.string id) ∧ globalIPv4 id ifname ipv4 propPrimaryInterface = some (.string ifname) := by
  obtain ⟨hservice, hinterface, hne⟩ := globalProperties_ne
  unfold globalIPv4
  cases ipv4 propRouter <;> simp [dictionaryOf, hservice, hinterface, hne]

section

variable {store : Dictionary} {p : Plan} {id ifname : CFString}

/-- The services' keys after a request are those it says. -/
theorem Plan.writeAll_source {key : CFString} (hkey : Source key) : writeAll p.writes store key = writeAll p.given store key := by
  rw [Plan.writes, Plan.given, writeAll_append, writeAll_append]
  refine writeAll_congr ?_
  rw [writesOf_append, writeAll_append]
  refine writeAll_of_notMem fun v hv => ?_
  obtain ⟨value, hmem, -⟩ := mem_writesOf.mp hv
  obtain ⟨q, -, hq⟩ := List.mem_flatMap.mp hmem
  exact (q.derived hq).ne_source hkey rfl

theorem hasIPv4_congr {store store' : Dictionary} (h : ∀ key, Source key → store' key = store key) : HasIPv4 store' id ifname ↔ HasIPv4 store id ifname := by
  rw [HasIPv4, HasIPv4, serviceIPv4, serviceIPv4, pluginIPv4, pluginIPv4, h _ (.inl ⟨_, _, rfl⟩), h _ (.inr ⟨_, rfl⟩)]

/-- The global entry after a request that does not set or remove it. -/
theorem Plan.writeAll_global (hset : ∀ e ∈ p.entries, e.1 ≠ globalIPv4Key) (hremoved : globalIPv4Key ∉ p.removed) :
    writeAll p.writes store globalIPv4Key =
      match p.published.getLast? with
      | some q => some (.dictionary (globalIPv4 q.service q.ifname q.ipv4))
      | none => store globalIPv4Key := by
  rw [Plan.writes, writeAll_append, writeAll_of_notMem, writesOf_append, writeAll_append]
  · have hentries : writeAll (writesOf p.entries) store globalIPv4Key = store globalIPv4Key := by
      refine writeAll_of_notMem fun v hv => ?_
      obtain ⟨value, hmem, -⟩ := mem_writesOf.mp hv
      exact hset _ hmem rfl
    cases hlast : p.published.getLast? with
    | none =>
      rw [List.getLast?_eq_none_iff.mp hlast]
      exact hentries
    | some q =>
      -- the last service's entry is written last
      obtain ⟨others, hpublished⟩ := List.getLast?_eq_some_iff.mp hlast
      rw [hpublished, List.flatMap_append, writesOf_append, writeAll_append, List.flatMap_singleton]
      have hmem : (globalIPv4Key, Plist.dictionary (globalIPv4 q.service q.ifname q.ipv4)) ∈ q.entries := by simp [Publication.entries]
      exact writeAll_writesOf hmem fun v hv => congrArg Prod.snd (List.inj_on_of_nodup_map q.entries_nodup hv hmem rfl)
  · intro v hv
    obtain ⟨key, hkey, heq⟩ := List.mem_map.mp hv
    cases heq
    exact hremoved hkey

theorem Plan.writeAll_removed {key : CFString} (h : key ∈ p.removed) : writeAll p.writes store key = none := by
  rw [Plan.writes, writeAll_append]
  refine writeAll_eq (List.mem_map.mpr ⟨key, h, rfl⟩) fun v hv => ?_
  obtain ⟨_, -, heq⟩ := List.mem_map.mp hv
  cases heq
  rfl

theorem Plan.namesPrimary_iff (hset : ∀ e ∈ p.entries, e.1 ≠ globalIPv4Key) (hremoved : globalIPv4Key ∉ p.removed) :
    NamesPrimary (writeAll p.writes store) id ifname ↔ p.Primary store id ifname := by
  rw [NamesPrimary, globalString, globalString, writeAll_global hset hremoved, Plan.Primary]
  cases p.published.getLast? with
  | none => rfl
  | some q =>
    obtain ⟨hservice, hinterface⟩ := globalIPv4_names q.service q.ifname q.ipv4
    simp [Plist.dictionary?, hservice, hinterface, Plist.string?]

end

/-! ## One call -/

section

variable {env : Env} {st : Server}

/-- A request that writes keeps the global entry right exactly if it leaves its service an entry. -/
theorem Write.consistent_iff (w : Write) (hdirect : globalIPv4Key ∉ w.sets) (h : Consistent st.store) :
    Consistent ((w.run st).2).store ↔ w.Keeps st := by
  have hstore : ((w.run st).2).store = writeAll (w.plan st).writes st.store := by
    rw [w.run_eq, ← w.effect_writes]
    rfl
  have hset : ∀ e ∈ (w.plan st).entries, e.1 ≠ globalIPv4Key := by
    intro e he heq
    exact hdirect (heq ▸ Write.plan_entries he)
  have hhas : ∀ {id ifname}, HasIPv4 (writeAll (w.plan st).writes st.store) id ifname ↔ HasIPv4 (writeAll (w.plan st).given st.store) id ifname :=
    hasIPv4_congr fun key hkey => Plan.writeAll_source hkey
  rw [hstore]
  constructor
  · intro hcons hremoved id ifname hprimary
    obtain ⟨hservice, hinterface⟩ := (Plan.namesPrimary_iff hset hremoved).mpr hprimary
    have hsome : (writeAll (w.plan st).writes st.store globalIPv4Key).isSome := by
      cases hg : writeAll (w.plan st).writes st.store globalIPv4Key with
      | none => simp [globalString, hg] at hservice
      | some g => rfl
    obtain ⟨id', ifname', ⟨hservice', hinterface'⟩, hentry⟩ := hcons hsome
    obtain rfl : id' = id := Option.some.inj (hservice'.symm.trans hservice)
    obtain rfl : ifname' = ifname := Option.some.inj (hinterface'.symm.trans hinterface)
    exact hhas.mp hentry
  · intro hkeeps hsome
    have hremoved : globalIPv4Key ∉ (w.plan st).removed := by
      intro hmem
      rw [Plan.writeAll_removed hmem] at hsome
      cases hsome
    have hprimary : ∃ id ifname, (w.plan st).Primary st.store id ifname := by
      rw [Plan.writeAll_global hset hremoved] at hsome
      cases hlast : (w.plan st).published.getLast? with
      | none =>
        rw [hlast] at hsome
        obtain ⟨id, ifname, hnames, -⟩ := h hsome
        exact ⟨id, ifname, by rw [Plan.Primary, hlast]; exact hnames⟩
      | some q => exact ⟨q.service, q.ifname, by rw [Plan.Primary, hlast]; exact ⟨rfl, rfl⟩⟩
    obtain ⟨id, ifname, hprimary⟩ := hprimary
    exact ⟨id, ifname, (Plan.namesPrimary_iff hset hremoved).mpr hprimary, hhas.mpr (hkeeps hremoved id ifname hprimary)⟩

/-- Of the entries that are published for an interface, one is its service's and one is the global one. -/
theorem InterfaceState.entries_kinds (i : InterfaceState) (env : Env) : ∀ e ∈ i.entries env,
    (e.1 = copyServiceEntityKey i.service entIPv4 → e.2 = .dictionary i.ipv4) ∧ (e.1 = globalIPv4Key → e.2 = .dictionary (i.globalIPv4 env)) := by
  have hservice : (copyServiceEntityKey i.service entIPv4).take 16 = (stateDomain ++ networkService).take 16 :=
    take_service _ _ _ key_heads.2.1.1
  have hother : ∀ {key : CFString} {v : Plist}, key.take 16 ≠ (stateDomain ++ networkService).take 16 → key.take 16 ≠ globalIPv4Key.take 16 →
      (key = copyServiceEntityKey i.service entIPv4 → v = .dictionary i.ipv4) ∧ (key = globalIPv4Key → v = .dictionary (i.globalIPv4 env)) :=
    fun hS hG => ⟨fun heq => absurd heq (ne_of_take (hservice ▸ hS)), fun heq => absurd heq (ne_of_take hG)⟩
  intro e he
  simp only [InterfaceState.entries, InterfaceState.setupEntries, List.cons_append, List.nil_append, List.mem_cons, List.not_mem_nil, or_false] at he
  rcases he with rfl | rfl | rfl | rfl | rfl | rfl | rfl | rfl
  all_goals dsimp only
  · exact hother (by decide +kernel) (by decide +kernel)
  · exact hother (by rw [take_interface]; decide +kernel) (by rw [take_interface]; decide +kernel)
  · refine ⟨fun _ => rfl, fun heq => absurd heq (ne_of_take ?_)⟩
    rw [hservice]
    decide +kernel
  · refine ⟨fun heq => absurd heq (ne_of_take ?_), fun _ => rfl⟩
    rw [hservice]
    decide +kernel
  · refine ⟨fun heq => absurd heq (ne_of_take ?_), fun heq => absurd heq globalIPv4Key_ne_globalDNSKey.symm⟩
    rw [hservice]
    decide +kernel
  · refine hother ?_ ?_ <;> rw [take_service _ _ _ (by decide +kernel)] <;> decide +kernel
  · refine hother ?_ ?_ <;> rw [take_service _ _ _ (by decide +kernel)] <;> decide +kernel
  · exact hother (by decide +kernel) (by decide +kernel)

/-- The published state of an interface is that of its own service. -/
theorem InterfaceState.consistent (i : InterfaceState) (env : Env) (store : Dictionary) : Consistent (writeAll (writesOf (i.entries env)) store) := by
  have hservice : writeAll (writesOf (i.entries env)) store (copyServiceEntityKey i.service entIPv4) = some (.dictionary i.ipv4) :=
    writeAll_writesOf (by simp [InterfaceState.entries]) fun v hv => (i.entries_kinds env _ hv).1 rfl
  have hglobal : writeAll (writesOf (i.entries env)) store globalIPv4Key = some (.dictionary (i.globalIPv4 env)) :=
    writeAll_writesOf (by simp [InterfaceState.entries]) fun v hv => (i.entries_kinds env _ hv).2 rfl
  refine fun _ => ⟨i.service, i.ifname, ?_, .inl ?_⟩
  · constructor <;>
      simp [globalString, hglobal, Plist.dictionary?, InterfaceState.globalIPv4, dictionaryOf, globalProperties_ne, Plist.string?]
  · simp [serviceIPv4, hservice, Plist.dictionary?, interfaceName, InterfaceState.ipv4, dictionaryOf, Plist.string?]

theorem Read.consistent (r : Read) (interface? : Option InterfaceState) (h : Consistent st.store) : Consistent (r.run env interface? st).store := by
  have hrefresh : Consistent (st.refreshNetworkStateIfNeeded env interface?).store := by
    rw [refresh_store, lazyEntries]
    split
    · exact h
    · cases interface? with
      | none => exact h
      | some i => simpa using i.consistent env st.store
  rcases r.run_eq env interface? st with hrun | ⟨port, hrun⟩
  · rw [hrun]
    exact hrefresh
  · rw [hrun, Server.getSession_store]
    exact hrefresh

theorem Notify.run_store (n : Notify) (server : Port) : (n.run server st).store = st.store := by
  rcases n.run_eq server st with ⟨h, -⟩ | ⟨f, -, -, -, ⟨h, -⟩ | h⟩
  · rw [h]
  · rw [h]
    rfl
  · rw [h]
    exact st.getSession_store server

end

/-! ## Runs -/

/-- The call does not set the global entry itself. -/
def Call.Indirect : Call → Prop
  | .write w => globalIPv4Key ∉ w.sets
  | _ => True

/-- In a run that starts without the global entry and does not set it itself, the entry names a service with an IPv4
entry for its interface at every time exactly if every request that writes leaves one to the primary service. -/
theorem global_consistent_iff (env : Env) (st : Server) (hstart : st.store globalIPv4Key = none) (calls : List Call)
    (hcalls : ∀ c ∈ calls, c.Indirect) :
    (∀ n, Consistent (st.run env (calls.take n)).store) ↔
      ∀ before w rest, calls = before ++ .write w :: rest → w.Keeps (st.run env before) := by
  constructor
  · intro hall before w rest heq
    have hbefore := hall before.length
    have hafter := hall (before.length + 1)
    subst heq
    rw [List.take_left] at hbefore
    have htake : (before ++ Call.write w :: rest).take (before.length + 1) = before ++ [Call.write w] := by
      rw [List.take_append, List.take_of_length_le (Nat.le_succ _), Nat.add_sub_cancel_left]
      rfl
    rw [htake, Server.run_append] at hafter
    exact (w.consistent_iff (hcalls (.write w) (by simp)) hbefore).mp hafter
  · intro hkeeps n
    induction n with
    | zero =>
      intro hsome
      rw [List.take_zero] at hsome
      rw [show (st.run env []).store globalIPv4Key = none from hstart] at hsome
      cases hsome
    | succ n ih =>
      by_cases hn : n < calls.length
      · have htake : calls.take (n + 1) = calls.take n ++ [calls[n]] := (List.take_append_getElem hn).symm
        have hsplit : calls = calls.take n ++ calls[n] :: calls.drop (n + 1) := by
          rw [List.getElem_cons_drop, List.take_append_drop]
        rw [htake, Server.run_append]
        have hindirect := hcalls calls[n] (List.getElem_mem hn)
        cases hc : calls[n] with
        | read r interface? => exact r.consistent interface? ih
        | write w =>
          rw [hc] at hsplit hindirect
          exact (w.consistent_iff hindirect ih).mpr (hkeeps _ w _ hsplit)
        | notify server n' =>
          show Consistent (n'.run server _).store
          rw [Notify.run_store]
          exact ih
      · rw [List.take_of_length_le (by omega)] at ih ⊢
        exact ih

/-- A service is published, and then its entry is removed. -/
def publishedAndRemoved : List Call :=
  [.write (.configsetM (some (some (.single (serviceState "a" "en0").1 (serviceState "a" "en0").2))) none none),
    .write (.configremove (some (serviceState "a" "en0").1))]

theorem publishedAndRemoved_indirect : ∀ c ∈ publishedAndRemoved, c.Indirect := by
  intro c hc
  simp only [publishedAndRemoved, List.mem_cons, List.not_mem_nil, or_false] at hc
  rcases hc with rfl | rfl
  · show globalIPv4Key ∉ [copyServiceEntityKey _ _]
    rw [List.mem_singleton]
    exact ne_of_take (by rw [globalIPv4Key, copyServiceEntityKey, take_global _ _ key_heads.2.1.2.2.2, take_service _ _ _ key_heads.2.1.1]; exact key_heads.2.2.1.2.1)
  · exact List.not_mem_nil

theorem global_consistent_iff_removed :
    (∀ n, Consistent (emptyServer.run launchdEnv (publishedAndRemoved.take n)).store) ↔
      ∀ before w rest, publishedAndRemoved = before ++ .write w :: rest → w.Keeps (emptyServer.run launchdEnv before) :=
  global_consistent_iff launchdEnv emptyServer rfl publishedAndRemoved publishedAndRemoved_indirect

/-- The global entry still names the service whose entry is gone. -/
theorem a_removed_service_stays_primary : emptyServer.store globalIPv4Key = none ∧ (∀ c ∈ publishedAndRemoved, c.Indirect) ∧
    globalString (emptyServer.run launchdEnv publishedAndRemoved).store propPrimaryService = some "a".toList ∧
    ((emptyServer.run launchdEnv publishedAndRemoved).store (copyServiceEntityKey "a".toList entIPv4)).isNone ∧
    ((emptyServer.run launchdEnv publishedAndRemoved).store (ipconfigurationKey "a".toList)).isNone :=
  ⟨rfl, publishedAndRemoved_indirect, by decide +kernel, by decide +kernel, by decide +kernel⟩

end Panthera.Configd
