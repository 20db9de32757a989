/-
Creation of threads inside the enclave (`pthread_create` and `_pthread_thread_run`).

`pthread_create` puts a thread object into a work queue and asks the host for a thread.  A thread
that enters `_pthread_thread_run` takes the first object out of the queue, whichever it is, and runs its
start routine.  A creator whose request fails takes out the first one as well: its own, which it
frees, or another one's, which it marks with an error for its creator to find.  Creators wait
in OCALLs until the state of their object has changed.

* `Pthreads`, `step` — the queue, the objects, every call and every thread that runs one, in any
  order;
* `WaitSucceeds` — the actions of a host that lets the creators wait.

Addresses of objects are not used again; `c` is a call of `pthread_create` and its object.
-/
import LinuxSgx.Lib.Fifo
import LinuxSgx.Lib.Runs

open Runs Function

namespace Pthread

/-- `_pthread_state`. -/
inductive State where
  | none
  | preparing
  | execution
  | wakedup
  | errorOutOfTcs
  | errorUnexpected
  deriving DecidableEq

/-- The states in which the creator returns an error. -/
def State.isError : State → Bool
  | .errorOutOfTcs => true
  | .errorUnexpected => true
  | _ => false

/-- What `pthread_create_ocall` may report. -/
inductive OcallResult where
  | success
  | outOfTcs
  | other
  deriving DecidableEq

/-- What `pthread_create` returns. -/
inductive Result where
  | ok
  | einval
  | eagain
  | enomem
  deriving DecidableEq

/-- `pthread`. -/
structure Thread where
  state : State
  startRoutine : UInt64
  arg : UInt64
  deriving DecidableEq

/-- Where a call of `pthread_create` is.  At `wakeup` it reads `creater_td` of the object that it has
rejected, whose lock it has released before. -/
inductive CreatePc where
  | idle
  | insert
  | createOcall
  | cancel (ret : OcallResult)
  | reject (target : ℕ) (ret : OcallResult)
  | wakeup (target : ℕ)
  | wait
  | check
  | finish
  | returned (r : Result)
  deriving DecidableEq

/-- Where a thread in `_pthread_thread_run` is. -/
inductive RunPc where
  | idle
  | popped (c : ℕ)
  | started (c : ℕ)
  | woken (c : ℕ)
  | running (c : ℕ)
  deriving DecidableEq

/-- The shared state; `request` and `ran` record what each call was given and what was run for
it. -/
structure Pthreads where
  thread : ℕ → Thread
  live : ℕ → Bool
  next : ℕ → Option ℕ
  queue : Fifo ℕ
  fresh : ℕ
  call : ℕ → CreatePc
  runner : ℕ → RunPc
  request : ℕ → UInt64 × UInt64
  ran : ℕ → List (UInt64 × UInt64)

inductive Action where
  | create (threadp : Bool) (routine arg : UInt64) (malloc : Bool)
  | insert (c : ℕ)
  | createOcall (c : ℕ) (ret : OcallResult)
  | cancel (c : ℕ)
  | reject (c : ℕ)
  | wakeup (c : ℕ)
  | wait (c : ℕ) (ok : Bool)
  | check (c : ℕ)
  | finish (c : ℕ)
  | enter (r : ℕ)
  | start (r : ℕ)
  | wakeCreator (r : ℕ)
  | exec (r : ℕ)
  | exit (r : ℕ)

namespace Pthreads

def init : Pthreads where
  thread := fun _ => ⟨.none, 0, 0⟩
  live := fun _ => false
  next := fun _ => none
  queue := Fifo.empty
  fresh := 0
  call := fun _ => .idle
  runner := fun _ => .idle
  request := fun _ => (0, 0)
  ran := fun _ => []

variable (s : Pthreads)

def setCall (c : ℕ) (pc : CreatePc) : Pthreads := { s with call := update s.call c pc }

def setRunner (r : ℕ) (pc : RunPc) : Pthreads :=
  { s with runner := update s.runner r pc }

def setState (c : ℕ) (state : State) : Pthreads :=
  { s with thread := update s.thread c { s.thread c with state := state } }

@[simp]
theorem setCall_self (c : ℕ) (pc : CreatePc) : (s.setCall c pc).call c = pc :=
  update_self ..

theorem setCall_of_ne {c c' : ℕ} (h : c' ≠ c) (pc : CreatePc) :
    (s.setCall c pc).call c' = s.call c' :=
  update_of_ne h ..

@[simp]
theorem setRunner_self (r : ℕ) (pc : RunPc) : (s.setRunner r pc).runner r = pc :=
  update_self ..

theorem setRunner_of_ne {r r' : ℕ} (h : r' ≠ r) (pc : RunPc) :
    (s.setRunner r pc).runner r' = s.runner r' :=
  update_of_ne h ..

@[simp]
theorem setState_self (c : ℕ) (state : State) : ((s.setState c state).thread c).state = state := by
  show (update s.thread c _ c).state = state
  rw [update_self]

theorem setState_of_ne {c c' : ℕ} (h : c' ≠ c) (state : State) :
    (s.setState c state).thread c' = s.thread c' :=
  update_of_ne h ..

/-- `free(thread); return r`. -/
def fail (c : ℕ) (r : Result) : Pthreads :=
  { s.setCall c (.returned r) with live := update s.live c false }

/-- The checks on the arguments of `pthread_create`; `within` is `sgx_is_within_enclave`. -/
def accepts (within : UInt64 → Bool) (threadp : Bool) (routine arg : UInt64) : Bool :=
  threadp && (routine != 0 && within routine) && (arg == 0 || within arg)

/-- A new call: its arguments are checked, its object is allocated and filled in. -/
def create (within : UInt64 → Bool) (threadp : Bool) (routine arg : UInt64) (malloc : Bool) :
    Pthreads :=
  let c := s.fresh
  let s := { s with fresh := c + 1, request := update s.request c (routine, arg) }
  if accepts within threadp routine arg = true then
    if malloc then
      { s.setCall c .insert with
        thread := update s.thread c ⟨.preparing, routine, arg⟩
        live := update s.live c true }
    else s.setCall c (.returned .enomem)
  else s.setCall c (.returned .einval)

/-- `SGX_THREAD_QUEUE_INSERT_TAIL`. -/
def insertTail (c : ℕ) : Option Pthreads :=
  (s.queue.insertTail s.next c).map fun q => { s with next := q.1, queue := q.2 }

/-- `SGX_THREAD_QUEUE_GET_HEADER`. -/
def getHeader : Pthreads × Option ℕ :=
  match s.queue.removeHead s.next with
  | none => (s, none)
  | some q => ({ s with queue := q }, s.queue.first)

/-- The error of the creator, or of the thread it takes out of the queue. -/
def errorOf : OcallResult → Result
  | .outOfTcs => .eagain
  | _ => .einval

def stateOf : OcallResult → State
  | .outOfTcs => .errorOutOfTcs
  | _ => .errorUnexpected

/-- The creator of `c` after its request has failed. -/
def cancel (c : ℕ) (ret : OcallResult) : Pthreads :=
  match s.getHeader with
  | (s, none) => s.setCall c .wait
  | (s, some target) =>
    if target = c then s.fail c (errorOf ret) else s.setCall c (.reject target ret)

/-- The end of `pthread_create`. -/
def finish (c : ℕ) : Pthreads :=
  if (s.thread c).state.isError = true then
    s.fail c (if (s.thread c).state = .errorOutOfTcs then .eagain else .einval)
  else s.setCall c (.returned .ok)

/-- A thread enters `_pthread_thread_run`. -/
def enter (r : ℕ) : Pthreads :=
  match s.getHeader with
  | (s, none) => s
  | (s, some c) => s.setRunner r (.popped c)

/-- The call of the start routine. -/
def exec (c : ℕ) : Pthreads :=
  { s with
    ran := update s.ran c (((s.thread c).startRoutine, (s.thread c).arg) :: s.ran c) }

end Pthreads

open Pthreads

/-- The action of a call or of a thread, if it is there. -/
def step (within : UInt64 → Bool) : Action → Pthreads → Option Pthreads
  | .create threadp routine arg malloc, s => some (s.create within threadp routine arg malloc)
  | .insert c, s =>
    if s.call c = .insert then (s.insertTail c).map (setCall · c .createOcall) else none
  | .createOcall c ret, s =>
    if s.call c = .createOcall then
      some (s.setCall c (if ret = .success then .wait else .cancel ret))
    else none
  | .cancel c, s =>
    match s.call c with
    | .cancel ret => some (s.cancel c ret)
    | _ => none
  | .reject c, s =>
    match s.call c with
    | .reject target ret => some ((s.setState target (stateOf ret)).setCall c (.wakeup target))
    | _ => none
  | .wakeup c, s =>
    match s.call c with
    | .wakeup _ => some (s.setCall c .wait)
    | _ => none
  | .wait c ok, s =>
    if s.call c = .wait then some (if ok then s.setCall c .check else s.fail c .einval) else none
  | .check c, s =>
    if s.call c = .check then
      some (s.setCall c (if (s.thread c).state = .preparing then .wait else .finish))
    else none
  | .finish c, s => if s.call c = .finish then some (s.finish c) else none
  | .enter r, s => if s.runner r = .idle then some (s.enter r) else none
  | .start r, s =>
    match s.runner r with
    | .popped c => some ((s.setState c .execution).setRunner r (.started c))
    | _ => none
  | .wakeCreator r, s =>
    match s.runner r with
    | .started c => some (s.setRunner r (.woken c))
    | _ => none
  | .exec r, s =>
    match s.runner r with
    | .woken c => some ((s.exec c).setRunner r (.running c))
    | _ => none
  | .exit r, s =>
    match s.runner r with
    | .running c => some ((s.setState c .wakedup).setRunner r .idle)
    | _ => none

/-- The host reports that its waits have succeeded. -/
def WaitSucceeds (_ : Pthreads) : Action → Prop
  | .wait _ ok => ok = true
  | _ => True

instance (s : Pthreads) (a : Action) : Decidable (WaitSucceeds s a) := by
  cases a <;> unfold WaitSucceeds <;> infer_instance

end Pthread
