/-
  Panthera.Configd.Watching — what a session watches
  (`_notifyadd`, `_notifyremove`, `_notifyset`, `_notifycancel`).

  A session keeps the keys and the patterns that it watches in arrays. `_notifyadd` and
  `_notifyremove` treat them as sets, `_notifyset` takes the lists as they come. The meaning of the
  requests is by sets: add inserts, remove deletes, set replaces and cancel empties; a request with
  an argument that is refused does nothing.

  Over every run of calls of any sessions the arrays are those of the session's own requests
  (`watched_run`); when they are the sets is `watches_as_sets_iff`.
-/

import Panthera.Configd.Notifications

namespace Panthera.Configd

open Lib.ArraySet

/-- What the session of a port watches; a port without a session watches nothing. -/
def watched (port : Port) (isRegex : Bool) (st : Server) : List CFString :=
  ((findSession port st.sessions).map (Session.array isRegex)).getD []

/-! ## The requests as operations on sets -/

def Call.ops (port : Port) (isRegex : Bool) : Call → List (Op CFString)
  | .notify server n => if server = port then n.ops isRegex else []
  | _ => []

def watchOps (port : Port) (isRegex : Bool) (calls : List Call) : List (Op CFString) := calls.flatMap (Call.ops port isRegex)

/-! ## One call -/

section

variable {env : Env} {st : Server} {port : Port} {isRegex : Bool}

theorem findSession_getSession_self (st : Server) (p : Port) : findSession p (st.getSession p).sessions ≠ none := by
  simp [findSession_getSession_eq]

/-- A new session watches nothing. -/
theorem watched_getSession (p : Port) : watched port isRegex (st.getSession p) = watched port isRegex st := by
  rw [watched, findSession_getSession_eq, watched]
  cases findSession port st.sessions with
  | some s => rfl
  | none => by_cases hp : p = port <;> cases isRegex <;> simp [hp, Session.array]

/-- A change of a session that does the operations to its array. -/
theorem watched_changeSessions {p : Port} {f : Session → Session} {ops : List (Op CFString)} (hport : ∀ s, (f s).port = s.port)
    (hops : ∀ s, (f s).array isRegex = ops.foldl Op.onArray (s.array isRegex))
    (hnone : findSession p st.sessions = none → ops.foldl Op.onArray [] = []) :
    watched port isRegex (st.changeSessions p f) =
      if p = port then ops.foldl Op.onArray (watched port isRegex st) else watched port isRegex st := by
  rw [watched, Server.changeSessions, findSession_changeSession hport, watched]
  by_cases hp : p = port
  · subst hp
    cases hs : findSession p st.sessions with
    | none => simp [hnone hs]
    | some s => simp [hops]
  · simp [hp, Ne.symm hp]

theorem watched_notify (server : Port) (n : Notify) :
    watched port isRegex (n.run server st) =
      if server = port then (n.ops isRegex).foldl Op.onArray (watched port isRegex st) else watched port isRegex st := by
  rcases n.run_eq server st with ⟨hrun, hops⟩ | ⟨f, hport, -, harray, ⟨hrun, hnone⟩ | hrun⟩
  · rw [hrun, hops]
    exact (ite_self _).symm
  · rw [hrun, watched_changeSessions hport (harray isRegex) fun _ => hnone isRegex]
  · rw [hrun, watched_changeSessions hport (harray isRegex) fun hs => absurd hs (findSession_getSession_self st server), watched_getSession]

theorem watched_write (w : Write) : watched port isRegex (w.run st).2 = watched port isRegex st := by
  have harray : (fun s => Session.array isRegex (Session.noteChanges (w.effect st).notes s)) = Session.array isRegex := by
    funext s
    obtain ⟨changes, h⟩ := s.noteChanges_eq (w.effect st).notes
    rw [h]
    rfl
  rw [watched, w.run_eq, Server.apply, Server.effect, findSession_map fun s => s.noteChanges_port _, Option.map_map, Function.comp_def,
    harray, watched]

theorem watched_step (c : Call) :
    watched port isRegex (st.step env c) = (c.ops port isRegex).foldl Op.onArray (watched port isRegex st) := by
  cases c with
  | read r interface? =>
    have hrefresh : watched port isRegex (st.refreshNetworkStateIfNeeded env interface?) = watched port isRegex st := by
      rw [watched, refresh_sessions, watched]
    rcases r.run_eq env interface? st with h | ⟨p, h⟩
    · exact (congrArg _ h).trans hrefresh
    · exact (congrArg _ h).trans ((watched_getSession p).trans hrefresh)
  | write w => exact watched_write w
  | notify server n =>
    rw [Server.step, watched_notify, Call.ops]
    split <;> rfl

end

/-! ## Runs -/

/-- A session's arrays after any run of calls are those that its own requests make of them. -/
theorem watched_run (env : Env) (st : Server) (port : Port) (isRegex : Bool) (calls : List Call) :
    watched port isRegex (st.run env calls) = (watchOps port isRegex calls).foldl Op.onArray (watched port isRegex st) := by
  induction calls generalizing st with
  | nil => rfl
  | cons c calls ih =>
    have hops : watchOps port isRegex (c :: calls) = c.ops port isRegex ++ watchOps port isRegex calls := List.flatMap_cons
    rw [hops, List.foldl_append, ← watched_step]
    exact ih (st.step env c)

/-- The sets of keys and patterns that the session's requests ask it to watch. -/
def asked (port : Port) (isRegex : Bool) (calls : List Call) : Finset CFString := Lib.ArraySet.set (watchOps port isRegex calls)

/-- The list of the session's last `_notifyset` (empty after a `_notifycancel`), and what it removed since. -/
def lastSet (port : Port) (isRegex : Bool) (calls : List Call) : Epoch CFString := epoch (watchOps port isRegex calls)

theorem watched_run_of_none {env : Env} {st : Server} {port : Port} (isRegex : Bool) (calls : List Call)
    (hnew : findSession port st.sessions = none) :
    watched port isRegex (st.run env calls) = array (watchOps port isRegex calls) := by
  have hempty : watched port isRegex st = [] := by rw [watched, hnew]; rfl
  rw [watched_run, hempty, array]

/-- A session that its first requests make watches the sets that its requests ask for, whatever other calls come between,
    exactly if each key or pattern that it should not watch was removed as often as the last `_notifyset` lists it. -/
theorem watches_as_sets_iff (env : Env) (st : Server) (port : Port) (calls : List Call) (hnew : findSession port st.sessions = none) :
    (∀ isRegex, (watched port isRegex (st.run env calls)).toFinset = asked port isRegex calls) ↔
      ∀ isRegex, ∀ key ∉ asked port isRegex calls,
        (lastSet port isRegex calls).base.count key ≤ (lastSet port isRegex calls).erased.count key := by
  apply forall_congr'
  intro isRegex
  rw [watched_run_of_none isRegex calls hnew, Finset.ext_iff]
  apply forall_congr'
  intro key
  rw [List.mem_toFinset]
  exact mem_iff_mem_iff _ key

/-! ## A key that stays -/

def startedServer : Server := { store := fun _ => none }

/-- The session of port 5 is to watch the listed keys, and then removes the key `k`. -/
def setThenRemove (keys : List Plist) : List Call :=
  [.notify 5 (.notifyset (some (.array keys)) none), .notify 5 (.notifyremove (some ['k']) false)]

/-- Listed twice, the key is watched on. -/
theorem removed_key_is_watched :
    ['k'] ∉ asked 5 false (setThenRemove [.string ['k'], .string ['k']]) ∧
      ['k'] ∈ watched 5 false (startedServer.run launchdEnv (setThenRemove [.string ['k'], .string ['k']])) := by
  decide

theorem watches_as_sets_iff_listed_once :
    findSession 5 startedServer.sessions = none ∧
      ∀ isRegex, (watched 5 isRegex (startedServer.run launchdEnv (setThenRemove [.string ['k']]))).toFinset =
        asked 5 isRegex (setThenRemove [.string ['k']]) := by
  refine ⟨rfl, (watches_as_sets_iff launchdEnv startedServer 5 _ rfl).mpr fun isRegex key _ => ?_⟩
  cases isRegex
  · exact Nat.le_refl _
  · exact Nat.zero_le _

end Panthera.Configd
