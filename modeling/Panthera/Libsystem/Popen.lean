/-
  Panthera.Libsystem.Popen — the child processes of streams
  (`panthera_tier1_syms.c`: `panthera_popen`, `panthera_pclose`).

  `_popen_pid_storage` has room for one child, and `pclose` waits for that one, whatever its stream is.
  Children are numbered as they are started and a stream has the number of its child, so that a process id or
  a `FILE` that is used again is a new one here.
-/

import Mathlib

namespace Panthera.Libsystem.Popen

/-- How far `popen` comes. -/
inductive Outcome where
  | noPipe | noChild | noStream | stream

inductive Call where
  | popen (o : Outcome)
  | pclose (stream : Nat)

structure St where
  popenPidStorage : Option Nat
  children : Nat
  reaped : List Nat

/-- A child that is there is stored even if it gets no stream. -/
def popen (o : Outcome) (st : St) : Option Nat × St :=
  match o with
  | .noPipe | .noChild => (none, st)
  | .noStream => (none, { st with popenPidStorage := some st.children, children := st.children + 1 })
  | .stream => (some st.children, { st with popenPidStorage := some st.children, children := st.children + 1 })

/-- The child whose status is returned; `none` is -1. A stored child was not waited for yet, so `waitpid` gets it. -/
def pclose (_stream : Nat) (st : St) : Option Nat × St :=
  (st.popenPidStorage, { st with popenPidStorage := none, reaped := st.reaped ++ st.popenPidStorage.toList })

def step (st : St) : Call → St
  | .popen o => (popen o st).2
  | .pclose stream => (pclose stream st).2

def run (calls : List Call) : St := calls.foldl step ⟨none, 0, []⟩

def Call.starts : Call → Bool
  | .popen .noStream | .popen .stream => true
  | _ => false

def Call.closes : Call → Option Nat
  | .popen _ => none
  | .pclose stream => some stream

/-- The last call, but for those that start and close nothing, started the child of the stream. -/
def JustOpened (calls : List Call) (stream : Nat) : Prop :=
  calls.countP Call.starts = stream + 1 ∧
    ∃ o, (calls.filter fun c => c.starts || c.closes.isSome).getLast? = some (.popen o)

variable (calls : List Call)

theorem run_concat (c : Call) : run (calls ++ [c]) = step (run calls) c := by
  rw [run, List.foldl_append]
  rfl

theorem run_children : (run calls).children = calls.countP Call.starts := by
  induction calls using List.reverseRecOn with
  | nil => rfl
  | append_singleton calls c ih =>
    rw [run_concat, List.countP_append, ← ih]
    cases c with
    | popen o => cases o <;> rfl
    | pclose stream => rfl

theorem run_storage (stream : Nat) : (run calls).popenPidStorage = some stream ↔ JustOpened calls stream := by
  induction calls using List.reverseRecOn with
  | nil => simp [run, JustOpened]
  | append_singleton calls c ih =>
    have hchildren := run_children calls
    rw [run_concat, JustOpened, List.countP_append, List.filter_append]
    cases c with
    | popen o =>
      cases o with
      | noPipe | noChild => simpa [step, popen, Call.starts, Call.closes, JustOpened] using ih
      | noStream | stream => simp [step, popen, Call.starts, Call.closes, hchildren]
    | pclose f => simp [step, pclose, Call.starts, Call.closes]

/-- Children are waited for, and stored, in the order they were started. -/
def Ordered (st : St) : Prop :=
  (st.reaped ++ st.popenPidStorage.toList).Pairwise (· < ·) ∧ ∀ c ∈ st.reaped ++ st.popenPidStorage.toList, c < st.children

theorem Ordered.started {st : St} (h : Ordered st) :
    Ordered { st with popenPidStorage := some st.children, children := st.children + 1 } := by
  have hreaped : ∀ c ∈ st.reaped, c < st.children := fun c hc => h.2 c (List.mem_append_left _ hc)
  refine ⟨List.pairwise_append.mpr ⟨(List.pairwise_append.mp h.1).1, by simp, by simpa using hreaped⟩, fun c hc => ?_⟩
  rcases List.mem_append.mp hc with hc | hc
  · exact Nat.lt_succ_of_lt (hreaped c hc)
  · simp_all

theorem run_ordered : Ordered (run calls) := by
  induction calls using List.reverseRecOn with
  | nil => simp [run, Ordered]
  | append_singleton calls c ih =>
    rw [run_concat]
    cases c with
    | popen o =>
      cases o with
      | noPipe | noChild => exact ih
      | noStream | stream => exact ih.started
    | pclose stream => simpa [step, pclose, Ordered] using ih

/-- A child that is neither stored nor waited for stays so. -/
theorem foldl_not_reaped {child : Nat} {st : St} (hlt : child < st.children) (hnot : child ∉ st.reaped ++ st.popenPidStorage.toList) :
    child ∉ (calls.foldl step st).reaped := by
  induction calls generalizing st with
  | nil => exact fun h => hnot (List.mem_append_left _ h)
  | cons c calls ih =>
    cases c with
    | popen o =>
      cases o with
      | noPipe | noChild => exact ih hlt hnot
      | noStream | stream =>
        refine ih (Nat.lt_succ_of_lt hlt) fun h => ?_
        rcases List.mem_append.mp h with h | h
        · exact hnot (List.mem_append_left _ h)
        · exact absurd (List.mem_singleton.mp h) (Nat.ne_of_lt hlt)
    | pclose stream => exact ih hlt (by simpa [step, pclose] using hnot)

/-- Over every run children are waited for in the order they were started, none twice, and one that
    was stored when the next was started is never waited for. -/
theorem reaped_in_order : (run calls).reaped.Pairwise (· < ·) ∧ (∀ child ∈ (run calls).reaped, child < (run calls).children) ∧
    ∀ before c after, calls = before ++ c :: after → c.starts = true → ∀ child ∈ (run before).popenPidStorage,
      child ∉ (run calls).reaped := by
  obtain ⟨hordered, hlt⟩ := run_ordered calls
  refine ⟨(List.pairwise_append.mp hordered).1, fun child h => hlt child (List.mem_append_left _ h), ?_⟩
  intro before c after hcalls hstarts child hstored
  subst hcalls
  obtain ⟨hbefore, hchild⟩ := run_ordered before
  have hstored : child ∈ (run before).popenPidStorage.toList := Option.mem_toList.mpr hstored
  have hlt := hchild child (List.mem_append_right _ hstored)
  -- those that were waited for come before the stored one
  have hnot : child ∉ (run before).reaped := fun h => Nat.lt_irrefl _ ((List.pairwise_append.mp hbefore).2.2 child h child hstored)
  have hstep : step (run before) c =
      { run before with popenPidStorage := some (run before).children, children := (run before).children + 1 } := by
    cases c with
    | popen o => cases o <;> first | rfl | cases hstarts
    | pclose stream => cases hstarts
  rw [run, List.foldl_append, List.foldl_cons, ← run, hstep]
  refine foldl_not_reaped after (Nat.lt_succ_of_lt hlt) fun h => ?_
  rcases List.mem_append.mp h with h | h
  · exact hnot h
  · exact absurd (List.mem_singleton.mp h) (Nat.ne_of_lt hlt)

/-- Over every run, each `pclose` returns the status of the child of its own stream exactly if every stream that is closed was
    just opened; and then the children of the closed streams are waited for, once for each time. -/
theorem pclose_own_iff (calls : List Call) :
    ((∀ before stream after, calls = before ++ .pclose stream :: after → (pclose stream (run before)).1 = some stream) ↔
      ∀ before stream after, calls = before ++ .pclose stream :: after → JustOpened before stream) ∧
    ((∀ before stream after, calls = before ++ .pclose stream :: after → (pclose stream (run before)).1 = some stream) →
      (run calls).reaped = calls.filterMap Call.closes) := by
  refine ⟨by simp only [pclose, run_storage], ?_⟩
  induction calls using List.reverseRecOn with
  | nil => exact fun _ => rfl
  | append_singleton calls c ih =>
    intro h
    have hcalls := ih fun before stream after heq => h before stream (after ++ [c]) (by rw [heq]; simp)
    rw [run_concat, List.filterMap_append, ← hcalls]
    cases c with
    | popen o => cases o <;> simp [step, popen, Call.closes]
    | pclose stream =>
      have hlast : (run calls).popenPidStorage = some stream := h calls stream [] rfl
      rw [step, pclose, hlast]
      rfl

/-- Of two open streams, the first that is closed gets the status of the other's child, and the second gets -1. -/
theorem the_other_child_is_reaped :
    (pclose 0 (run [.popen .stream, .popen .stream])).1 = some 1 ∧
      (pclose 1 (run [.popen .stream, .popen .stream, .pclose 0])).1 = none := by
  decide

end Panthera.Libsystem.Popen
