/-
The handle of a thread (`aesm_thread.cpp`).

The creator of a thread waits for it or joins it and then frees the handle; whoever of the
two is done last has to release the memory.  They agree on it through the status of the handle,
under its mutex: what a side does while it holds the mutex is one step.

* `State`, `Action`, `step` — the handle, the thread and the creator, in any order;
* `phases` — the states that the two sides go through;
* **`released_once`** — the memory is released once, by the last one, and the thread is
  joined or detached once, if (`Careful`) the wait in `aesm_free_thread` ends only after the
  thread has started and the thread is joined at most once;
* **`released_too_early`** — a spurious wake-up, and the thread starts on a handle that is gone.

The mutex and the condition variables do not fail.
-/
import LinuxSgx.Lib.Runs
import Mathlib.Data.Nat.Basic

open Runs

namespace Aesm.Thread

/-- `_aesm_thread_status_t`. -/
inductive Status where
  | init
  | invalid
  | running
  | pending
  | detached
  | freed
  deriving DecidableEq

/-- Where the thread is; `leaving` is after it has found the handle freed. -/
inductive ThreadPc where
  | new
  | body
  | leaving
  | done
  deriving DecidableEq

/-- Where the creator is: in none of the functions, in the wait of `aesm_wait_thread` or of
`aesm_free_thread`, before `aesm_dealloc_resource`, or back from `aesm_free_thread`. -/
inductive CreatorPc where
  | idle
  | waiting
  | copying
  | leaving
  | returned
  deriving DecidableEq

/-- The last three fields are not in the code: how often the memory was released, how often the
thread was joined or detached, and if the handle was used after a release. -/
structure State where
  status : Status
  thread : ThreadPc
  creator : CreatorPc
  released : ℕ
  ended : ℕ
  late : Bool
  deriving DecidableEq

inductive Action where
  /-- the thread copies its parameters -/
  | start
  /-- its function has returned -/
  | finish
  | release
  | wait
  /-- a signal, the end of the time or nothing at all -/
  | wake
  | join
  | free
  /-- the same in `aesm_free_thread` -/
  | copied
  | dealloc
  deriving DecidableEq

namespace State

/-- After `aesm_create_thread`. -/
def init : State := ⟨.init, .new, .idle, 0, 0, false⟩

variable (s : State)

def use : State := { s with late := s.late || decide (0 < s.released) }

def detach : State := { s.use with ended := s.ended + 1 }

/-- `aesm_dealloc_resource`. -/
def dealloc : State := { s.use with status := .invalid, released := s.released + 1 }

/-- `aesm_thread_proc` after the function. -/
def finish : State :=
  match s.status with
  | .running => { s with status := .pending, thread := .done }
  | .freed => { s with thread := .leaving }
  | _ => { s with status := .invalid, thread := .done }

/-- `aesm_free_thread` after its wait. -/
def free : State :=
  match s.status with
  | .running => { s with status := .freed, creator := .returned }
  | .pending => { s.detach with status := .detached, creator := .leaving }
  | .freed => { s with creator := .returned }
  -- DETACHED, and the others: "dealloc anyway"
  | _ => { s with creator := .leaving }

end State

/-- `pthread_join` returns when the thread has ended.  A second one has no defined result. -/
def step : Action → State → Option State
  | .start, s =>
    if s.thread = .new then some { s.use with status := .running, thread := .body } else none
  | .finish, s => if s.thread = .body then some s.use.finish else none
  | .release, s => if s.thread = .leaving then some { s.detach.dealloc with thread := .done } else none
  | .wait, s =>
    if s.creator = .idle then
      some (if s.status = .init ∨ s.status = .running then { s.use with creator := .waiting } else s.use)
    else none
  | .wake, s => if s.creator = .waiting then some { s.use with creator := .idle } else none
  | .join, s =>
    if s.creator = .idle ∧ s.thread = .done then
      some { s.detach with status := if s.status = .pending then .detached else .invalid }
    else none
  | .free, s =>
    if s.creator = .idle then
      some (if s.status = .init then { s.use with creator := .copying } else s.use.free)
    else none
  | .copied, s => if s.creator = .copying then some s.use.free else none
  | .dealloc, s => if s.creator = .leaving then some { s.dealloc with creator := .returned } else none

/-- The wait for the copy of the parameters ends after the copy, and the thread is not joined twice. -/
def Careful (s : State) : Action → Prop
  | .copied => s.status ≠ .init
  | .join => s.ended = 0
  | _ => True

instance (s : State) (a : Action) : Decidable (Careful s a) := by
  cases a <;> unfold Careful <;> infer_instance

/-- All the states of a careful run. -/
def phases : List State :=
  -- before the creator has freed the handle: the thread is new, runs or has ended
  ([.idle, .waiting, .copying].flatMap fun c =>
    [⟨.init, .new, c, 0, 0, false⟩, ⟨.running, .body, c, 0, 0, false⟩,
      ⟨.pending, .done, c, 0, 0, false⟩]) ++
  -- the thread was joined, or detached by the creator
  [⟨.detached, .done, .idle, 0, 1, false⟩, ⟨.detached, .done, .leaving, 0, 1, false⟩,
  -- the creator is done first
    ⟨.freed, .body, .returned, 0, 0, false⟩, ⟨.freed, .leaving, .returned, 0, 0, false⟩,
    ⟨.invalid, .done, .returned, 1, 1, false⟩]

theorem init_mem_phases : State.init ∈ phases := by decide

theorem step_mem_phases (a : Action) :
    ∀ s ∈ phases, Careful s a → ∀ s' ∈ step a s, s' ∈ phases := by
  cases a <;> decide

variable {s s' : State} {l : List Action}

theorem run_mem_phases (hrun : run (only Careful step) l .init = some s) : s ∈ phases := by
  refine invariant_of_run (I := (· ∈ phases)) ?_ hrun init_mem_phases
  intro a s s' hs hstep
  obtain ⟨hcareful, hstep⟩ := only_eq_some.mp hstep
  exact step_mem_phases a s hs hcareful s' hstep

/-- Nothing happens to the handle after its release, which is after the thread's last use and the
call of `aesm_free_thread`; at the end it is released and the thread is joined or detached. -/
structure Clean (s : State) : Prop where
  in_time : s.late = false
  once : s.released ≤ 1 ∧ s.ended ≤ 1
  last : 0 < s.released → s.thread = .done ∧ s.creator = .returned
  all : s.thread = .done ∧ s.creator = .returned → s.released = 1 ∧ s.ended = 1

theorem clean_of_mem (h : s ∈ phases) : Clean s := by
  have hall : ∀ s ∈ phases, s.late = false ∧ (s.released ≤ 1 ∧ s.ended ≤ 1) ∧
      (0 < s.released → s.thread = .done ∧ s.creator = .returned) ∧
      (s.thread = .done ∧ s.creator = .returned → s.released = 1 ∧ s.ended = 1) := by decide
  obtain ⟨hin, honce, hlast, hend⟩ := hall s h
  exact ⟨hin, honce, hlast, hend⟩

/-- What is left to do for both sides. -/
def rest (s : State) : List Action :=
  (match s.thread with
    | .new => [.start, .finish]
    | .body => .finish :: if s.status = .freed then [.release] else []
    | .leaving => [.release]
    | .done => []) ++
  match s.creator with
  | .idle => [.free, .dealloc]
  | .waiting => [.wake, .free, .dealloc]
  | .copying => [.copied, .dealloc]
  | .leaving => [.dealloc]
  | .returned => []

theorem rest_ends (h : s ∈ phases) : ∃ s', run (only Careful step) (rest s) s = some s' ∧
    s'.thread = .done ∧ s'.creator = .returned := by
  have hall : ∀ s ∈ phases, ((run (only Careful step) (rest s) s).map fun s' =>
      (s'.thread, s'.creator)) = some (.done, .returned) := by decide
  obtain ⟨s', hrun, hs'⟩ := Option.map_eq_some_iff.mp (hall s h)
  exact ⟨s', hrun, congrArg Prod.fst hs', congrArg Prod.snd hs'⟩

/-- **One release.**  In every state of a run the handle is used and released as it should be, and
from there both sides can come to their end. -/
theorem released_once (hrun : run (only Careful step) l .init = some s) :
    Clean s ∧ ∃ s', run (only Careful step) (rest s) s = some s' ∧ s'.thread = .done ∧
      s'.creator = .returned :=
  ⟨clean_of_mem (run_mem_phases hrun), rest_ends (run_mem_phases hrun)⟩

/-- The creator frees the handle of a running thread, which ends afterwards. -/
theorem released_once_freed :
    ∃ s, run (only Careful step) [.wait, .wake, .start, .free, .finish, .release] .init = some s ∧
      s.released = 1 ∧ Clean s := by
  obtain ⟨s, hrun, hs⟩ := Option.map_eq_some_iff.mp (show (run (only Careful step)
    [.wait, .wake, .start, .free, .finish, .release] .init).map State.released = some 1 by decide)
  exact ⟨s, hrun, hs, (released_once hrun).1⟩

/-- **A release before the start.**  The wait ends while the status is still `AESM_THREAD_INIT`, and
the handle is released "anyway"; the thread uses it afterwards, and nobody joins or detaches it. -/
theorem released_too_early : ∃ s s', run step [.free, .copied, .dealloc] .init = some s ∧
    s.released = 1 ∧ s.thread = .new ∧ step .start s = some s' ∧ s'.late = true ∧ s'.ended = 0 :=
  ⟨_, _, rfl, rfl, rfl, rfl, rfl, rfl⟩

end Aesm.Thread
