/-
  Panthera.Configd.Notifications — does a session hear of every change?

  A call touches the keys that it writes, or whose notification it asks for. Every request that
  writes notifies all it writes. Two things are silent: the state of the primary interface,
  which the first reads publish, and `_confignotify`, which answers OK and does nothing.

  Proved over every run of calls of any number of sessions: no change of what a session watches is
  lost exactly if no call touches silently a key that it has not pending
  (`no_lost_notification_iff`), and a session is told of nothing else (`told_iff`).
-/

import Panthera.Configd.Requests

namespace Panthera.Configd

open Lib.Updates

/-! ## Touched keys -/

/-- The keys whose notification a request asks for, if it is accepted. -/
def Write.asks (st : Server) : Write → List CFString
  | confignotify key => key.toList
  | w@(configsetM _ _ notify) => if (w.run st).1 = .ok then copyStrings notify else []
  | w@(storeSetMultiple _ _ notify) => if (w.run st).1 = .ok then copyStrings notify else []
  | _ => []

def Call.asks (st : Server) : Call → List CFString
  | .write w => w.asks st
  | _ => []

/-- The keys that a call writes or asks to notify. -/
def touched (env : Env) (st : Server) (c : Call) : List CFString := (st.step env c).written.drop st.written.length ++ c.asks st

/-- Those of them that it does not notify. -/
def silent (env : Env) (st : Server) : Call → List CFString
  | .read _ interface? => (lazyEntries env interface? st).map Prod.fst
  | .write (.confignotify key) => key.toList
  | _ => []

def Watches (st : Server) (port : Port) (key : CFString) : Prop := ∃ s, findSession port st.sessions = some s ∧ s.matchesKey key

/-- The session's next `_notifychanges` returns the key. -/
def Pending (st : Server) (port : Port) (key : CFString) : Prop := ∃ s, findSession port st.sessions = some s ∧ key ∈ s.changes

/-- The session asks for its changes, or gives them up. -/
def Call.Clears (port : Port) : Call → Prop
  | .notify server n => server = port ∧ n.Clears
  | _ => False

/-- `Notify.Clears`, of a request that is accepted. -/
def Notify.resets : Notify → Bool
  | notifychanges | notifycancel => true
  | notifyset keys patterns => !notArray keys && !notArray patterns
  | _ => false

def Call.Resets (port : Port) : Call → Prop
  | .notify server n => server = port ∧ n.resets
  | _ => False

/-- The keys that a call notifies. -/
def Call.notes (st : Server) : Call → List CFString
  | .write w => (w.effect st).notes
  | _ => []

section

variable {env : Env} {st : Server} {c : Call} {port : Port} {key : CFString}

theorem pending_getSession (p : Port) : Pending (st.getSession p) port key ↔ Pending st port key := by
  rw [Pending, findSession_getSession_eq, Pending]
  cases findSession port st.sessions with
  | some s => rfl
  | none => by_cases hp : p = port <;> simp [hp]

theorem mem_notifychanges_iff : key ∈ (st.notifychanges port).1.2 ↔ Pending st port key := by
  rw [← pending_getSession port, Server.notifychanges, Pending]
  cases findSession port (st.getSession port).sessions <;> simp

theorem mem_notifychanges (h : Pending st port key) : key ∈ (st.notifychanges port).1.2 := mem_notifychanges_iff.mpr h

/-- A session that exists is asked as it is. -/
theorem pending_of_mem_notifychanges (hw : Watches st port key) (h : key ∈ (st.notifychanges port).1.2) : Pending st port key := by
  obtain ⟨s, hs, -⟩ := hw
  exact ⟨s, hs, by simpa [Server.notifychanges, findSession_getSession hs] using h⟩

/-! ## One call -/

/-- The sessions after a request that writes. -/
theorem findSession_write_eq (w : Write) : findSession port ((w.run st).2).sessions =
    (findSession port st.sessions).map (Session.noteChanges (w.effect st).notes) := by
  rw [w.run_eq]
  exact findSession_map fun s => s.noteChanges_port _

theorem findSession_write {s : Session} (w : Write) (hs : findSession port st.sessions = some s) :
    findSession port ((w.run st).2).sessions = some (s.noteChanges (w.effect st).notes) := by
  rw [findSession_write_eq, hs]
  rfl

/-- A session after a read. -/
theorem findSession_read {s : Session} (r : Read) (interface? : Option InterfaceState) (hs : findSession port st.sessions = some s) :
    findSession port (r.run env interface? st).sessions = some s := by
  rw [← refresh_sessions env interface? st] at hs
  rcases r.run_eq env interface? st with h | ⟨p, h⟩
  · rw [h, hs]
  · rw [h, findSession_getSession hs]

theorem Notify.clears_of_resets {n : Notify} (h : n.resets) : n.Clears := by
  cases n with
  | notifychanges | notifycancel | notifyset _ _ => trivial
  | notifyadd _ _ | notifyremove _ _ | notifyviaport _ _ => cases h

/-- A change of a session that empties its changes or keeps them; the session may be a new one. -/
theorem pending_changeSessions {st' : Server} {p : Port} {f : Session → Session} (resets : Bool)
    (hst : Pending st' port key ↔ Pending st port key) (hport : ∀ s, (f s).port = s.port)
    (hchanges : ∀ s, (f s).changes = if resets then [] else s.changes) :
    Pending (st'.changeSessions p f) port key ↔ Pending st port key ∧ ¬ (p = port ∧ resets) := by
  rw [← hst]
  simp only [Pending, Server.changeSessions, findSession_changeSession hport, Option.map_eq_some_iff]
  by_cases hp : p = port
  · subst hp
    cases resets <;> simp [hchanges]
  · simp [hp, Ne.symm hp]

theorem pending_notify (server : Port) (n : Notify) :
    Pending (n.run server st) port key ↔ Pending st port key ∧ ¬ (server = port ∧ n.resets) := by
  by_cases hn : n.Clears
  · cases n with
    | notifychanges => exact pending_changeSessions true (pending_getSession server) (fun _ => rfl) fun _ => rfl
    | notifycancel => exact pending_changeSessions true .rfl (fun _ => rfl) fun _ => rfl
    | notifyset keys patterns =>
      simp only [Notify.run, Server.notifyset, Notify.resets]
      split_ifs with hkeys hpatterns
      · simp [hkeys]
      · simp [hpatterns]
      · simp only [hkeys, hpatterns]
        exact pending_changeSessions true (pending_getSession server) (fun _ => rfl) fun _ => rfl
    | notifyadd _ _ | notifyremove _ _ | notifyviaport _ _ => cases hn
  · rw [Bool.eq_false_iff.mpr fun h => hn (Notify.clears_of_resets h)]
    rcases n.run_eq server st with ⟨h, -⟩ | ⟨f, hport, hchanges, -, ⟨h, -⟩ | h⟩
    · simp [h]
    · rw [h]
      exact pending_changeSessions false .rfl hport (hchanges hn)
    · rw [h]
      exact pending_changeSessions false (pending_getSession server) hport (hchanges hn)

/-- A change is pending after a call if it was and the session did not take it, or if the call notifies what the session watches. -/
theorem pending_step_iff : Pending (st.step env c) port key ↔
    Pending st port key ∧ ¬ c.Resets port ∨ Watches st port key ∧ key ∈ c.notes st := by
  cases c with
  | read r interface? =>
    have hrefresh : Pending (st.refreshNetworkStateIfNeeded env interface?) port key ↔ Pending st port key := by
      rw [Pending, refresh_sessions, Pending]
    rcases r.run_eq env interface? st with h | ⟨p, h⟩ <;> simp [Server.step, h, pending_getSession, hrefresh, Call.Resets, Call.notes]
  | write w =>
    rw [Server.step, Pending, findSession_write_eq, Pending, Watches]
    cases findSession port st.sessions with
    | none => simp
    | some s => simp [Session.mem_noteChanges, Call.Resets, Call.notes, and_comm]
  | notify server n => simp [Server.step, pending_notify, Call.Resets, Call.notes]

/-- Pending changes stay until the session asks for them or gives them up. -/
theorem Pending.step (h : Pending st port key) (hc : ¬ c.Clears port) : Pending (st.step env c) port key := by
  refine pending_step_iff.mpr (.inl ⟨h, fun hresets => hc ?_⟩)
  cases c with
  | read _ _ | write _ => exact hresets
  | notify server n => exact ⟨hresets.1, Notify.clears_of_resets hresets.2⟩

/-- An accepted request notifies what it is asked to, unless it is `_confignotify`. -/
theorem Write.asks_noted {w : Write} (h : key ∈ w.asks st) : key ∈ (w.effect st).notes ∨ key ∈ silent env st (.write w) := by
  cases w with
  | confignotify k => exact .inr h
  | configsetM data remove notify =>
    left
    simp only [Write.asks, Write.run, Server.configsetM] at h
    simp only [Write.effect, Bool.or_eq_true]
    split_ifs at h <;> simp_all [Effect.setMultiple]
  | storeSetMultiple keysToSet keysToRemove keysToNotify =>
    left
    simp only [Write.asks, Write.run, Server.storeSetMultiple] at h
    simp only [Write.effect]
    split_ifs at h <;> simp_all [Effect.setMultiple]
  | configadd _ _ | configset _ _ | configremove _ | storeSetValue _ _ => cases h

/-- What a call touches is notified, or silent. -/
theorem noted_or_silent {w : Write} (h : key ∈ touched env st (.write w)) : key ∈ (w.effect st).notes ∨ key ∈ silent env st (.write w) := by
  rcases List.mem_append.mp h with h | h
  · left
    rw [Server.step, w.run_eq, Server.apply, Server.effect, List.drop_left] at h
    obtain ⟨x, hx, rfl⟩ := List.mem_map.mp h
    exact w.noted st x hx
  · exact Write.asks_noted h

theorem read_written (r : Read) (interface? : Option InterfaceState) :
    (st.step env (.read r interface?)).written = st.written ++ silent env st (.read r interface?) := by
  rcases r.run_eq env interface? st with h | ⟨p, h⟩
  · rw [Server.step, h, refresh_written]
    rfl
  · rw [Server.step, h, Server.getSession_written, refresh_written]
    rfl

theorem touched_of_silent (h : key ∈ silent env st c) : key ∈ touched env st c := by
  cases c with
  | read r interface? =>
    refine List.mem_append_left _ ?_
    rwa [read_written, List.drop_left]
  | write w =>
    cases w with
    | confignotify k => exact List.mem_append_right _ h
    | configadd _ _ | configset _ _ | configremove _ | configsetM _ _ _ | storeSetValue _ _ | storeSetMultiple _ _ _ => cases h
  | notify server n => cases h

/-- A request about notifications touches nothing. -/
theorem touched_notify (server : Port) (n : Notify) : touched env st (.notify server n) = [] := by
  have hwritten : (n.run server st).written = st.written := by
    rcases n.run_eq server st with ⟨h, -⟩ | ⟨f, -, -, -, ⟨h, -⟩ | h⟩
    · rw [h]
    · rw [h]
      rfl
    · rw [h]
      exact st.getSession_written server
  simp [touched, Server.step, hwritten, Call.asks]

/-- What a session watches when it is touched is pending then. -/
theorem pending_of_touched (hw : Watches st port key) (ht : key ∈ touched env st c) (hsilent : key ∈ silent env st c → Pending st port key) :
    Pending (st.step env c) port key := by
  cases c with
  | read r interface? =>
    have hmem : key ∈ silent env st (.read r interface?) := by
      rcases List.mem_append.mp ht with ht | ht
      · rwa [read_written, List.drop_left] at ht
      · cases ht
    exact (hsilent hmem).step fun h => h
  | write w =>
    rcases noted_or_silent ht with hnoted | hmem
    · exact pending_step_iff.mpr (.inr ⟨hw, hnoted⟩)
    · exact (hsilent hmem).step fun h => h
  | notify server n =>
    rw [touched_notify] at ht
    cases ht

/-- A silent call adds nothing to the pending changes. -/
theorem pending_of_silent (hw : Watches st port key) (hs : key ∈ silent env st c) (h : Pending (st.step env c) port key) : Pending st port key := by
  obtain ⟨s, hfind, -⟩ := hw
  obtain ⟨s', hfind', hkey⟩ := h
  cases c with
  | read r interface? =>
    rw [Server.step, findSession_read r interface? hfind] at hfind'
    cases hfind'
    exact ⟨s, hfind, hkey⟩
  | write w =>
    cases w with
    | confignotify k => exact ⟨s', hfind', hkey⟩
    | configadd _ _ | configset _ _ | configremove _ | configsetM _ _ _ | storeSetValue _ _ | storeSetMultiple _ _ _ => cases hs
  | notify server n => cases hs

/-! ## Runs -/

theorem Pending.run {calls : List Call} (h : Pending st port key) (hc : ∀ c ∈ calls, ¬ c.Clears port) : Pending (st.run env calls) port key := by
  induction calls generalizing st with
  | nil => exact h
  | cons c calls ih => exact ih (h.step (hc c List.mem_cons_self)) fun c' hc' => hc c' (List.mem_cons_of_mem c hc')

theorem Watches.step_of_touched (hw : Watches st port key) (ht : key ∈ touched env st c) : Watches (st.step env c) port key := by
  obtain ⟨s, hs, hmatches⟩ := hw
  cases c with
  | read r interface? => exact ⟨s, findSession_read r interface? hs, hmatches⟩
  | write w => exact ⟨_, findSession_write w hs, (Session.noteChanges_matchesKey _ _ _).trans hmatches⟩
  | notify server n =>
    rw [touched_notify] at ht
    cases ht

end

theorem Server.run_append (env : Env) (st : Server) (calls calls' : List Call) :
    st.run env (calls ++ calls') = (st.run env calls).run env calls' := List.foldl_append

/-- No notification is lost in a run exactly if no call touches silently a key that some session watches and has not pending. -/
theorem no_lost_notification_iff (env : Env) (st : Server) (calls : List Call) :
    (∀ before c between rest, calls = before ++ c :: (between ++ rest) → ∀ port key,
        Watches (st.run env before) port key → key ∈ touched env (st.run env before) c → (∀ c' ∈ between, ¬ c'.Clears port) →
        key ∈ ((st.run env (before ++ c :: between)).notifychanges port).1.2) ↔
      ∀ before c rest, calls = before ++ c :: rest → ∀ port key,
        key ∈ silent env (st.run env before) c → Watches (st.run env before) port key → Pending (st.run env before) port key := by
  constructor
  · intro hall before c rest hcalls port key hsilent hw
    have ht := touched_of_silent hsilent
    have hmem := hall before c [] rest hcalls port key hw ht (fun c' hc' => absurd hc' List.not_mem_nil)
    rw [Server.run_append] at hmem
    exact pending_of_silent hw hsilent (pending_of_mem_notifychanges (hw.step_of_touched ht) hmem)
  · intro hsilent before c between rest hcalls port key hw ht hclears
    have hpending := pending_of_touched hw ht fun hs => hsilent before c (between ++ rest) hcalls port key hs hw
    rw [Server.run_append]
    exact mem_notifychanges (hpending.run hclears)

/-- `_notifychanges` returns a key exactly if it was notified while the session watched it, and the session has not since
    asked for its changes or given them up (or so it was from the start on). -/
theorem told_iff (env : Env) (st : Server) (port : Port) (key : CFString) (calls : List Call) :
    key ∈ ((st.run env calls).notifychanges port).1.2 ↔
      Pending st port key ∧ (∀ c ∈ calls, ¬ c.Resets port) ∨
        ∃ before c after, calls = before ++ c :: after ∧ Watches (st.run env before) port key ∧
          key ∈ c.notes (st.run env before) ∧ ∀ c ∈ after, ¬ c.Resets port := by
  rw [mem_notifychanges_iff]
  induction calls generalizing st with
  | nil => simp [Server.run]
  | cons c calls ih =>
    rw [Server.run, List.foldl_cons, ← Server.run, ih, pending_step_iff]
    constructor
    · rintro (⟨⟨hp, hc⟩ | ⟨hw, hc⟩, hcalls⟩ | ⟨before, d, after, rfl, h⟩)
      · exact .inl ⟨hp, List.forall_mem_cons.mpr ⟨hc, hcalls⟩⟩
      · exact .inr ⟨[], c, calls, rfl, hw, hc, hcalls⟩
      · exact .inr ⟨c :: before, d, after, rfl, h⟩
    · rintro (⟨hp, hcalls⟩ | ⟨before, d, after, heq, hw, hd, hafter⟩)
      · obtain ⟨hc, hcalls⟩ := List.forall_mem_cons.mp hcalls
        exact .inl ⟨.inl ⟨hp, hc⟩, hcalls⟩
      · cases before with
        | nil =>
          cases heq
          exact .inl ⟨.inr ⟨hw, hd⟩, hafter⟩
        | cons b before =>
          cases heq
          exact .inr ⟨before, d, after, rfl, hw, hd, hafter⟩

/-- The environment of `com.apple.configd.plist`. -/
def launchdEnv : Env := ⟨true, none, none⟩

def en0 : InterfaceState := ⟨"en0".toList, "10.0.2.15".toList, "255.255.255.0".toList⟩

/-- A session that watches the global IPv4 entry, opened before an interface has an address. -/
def watching : Server :=
  Server.run launchdEnv ⟨fun _ => none, 0, false, false, 0, [], [], []⟩
    [.read (.configopen (some 7)) none, .notify 7 (.notifyadd (some globalIPv4Key) false)]

/-- The session watches the entry and does not hear of it: neither when a read publishes it, nor when
another client asks for its notification. -/
theorem a_published_key_is_not_notified : Watches watching 7 globalIPv4Key ∧
    (globalIPv4Key ∈ touched launchdEnv watching (.read (.configget none) (some en0)) ∧
      ((watching.step launchdEnv (.read (.configget none) (some en0))).notifychanges 7).1.2 = []) ∧
    globalIPv4Key ∈ touched launchdEnv watching (.write (.confignotify (some globalIPv4Key))) ∧
      ((watching.step launchdEnv (.write (.confignotify (some globalIPv4Key)))).notifychanges 7).1.2 = [] :=
  ⟨⟨_, rfl, by decide +kernel⟩, ⟨by decide +kernel, by decide +kernel⟩, by decide +kernel, by decide +kernel⟩

end Panthera.Configd
