/-
The owners of a request to the AESM service (`AESMQueue.h`, `AESMWorkerThread.cpp`,
`AESMQueueManager.cpp`).

The server loop passes each `RequestData` to the worker of its class, which executes and deletes it.
A step is what a thread does between two looks at what it shares with the others.

* `Worker`, `State`, `step` — the server loop, the three workers and the shutdown, in any order;
* `Ok` — where the requests of a class are;
* **`deleted_once`** — the requests are executed in order and before the stop, and all deleted at the
  end, if (`Careful`) a worker that leaves has none in its hand or its queue, none comes after
  it was stopped, and no stop comes just before an execution;
* **`left_in_the_queue`** — a worker is stopped while it executes, and the next request is lost.
-/
import LinuxSgx.Lib.Runs
import Mathlib.Data.List.Range
import Mathlib.Logic.Function.Basic

open Runs List

namespace Aesm.Workers

/-- The classes of requests that have a worker. -/
inductive Class where
  | quoting
  | launch
  | platform
  deriving DecidableEq

/-- Where `AESMWorkerThread::run` is; `test` is the `isStopped` after `blockingPop`. -/
inductive Pc where
  | loop
  | pop
  | test (requestData : Option ℕ)
  | execute (requestData : ℕ)
  | delete (requestData : ℕ)
  | done
  deriving DecidableEq

/-- Where the server loop is: outside of `enqueue`, before its `isStopped`, or before the `push`. -/
inductive Server where
  | idle
  | enqueue (c : Class) (requestData : ℕ)
  | push (c : Class) (requestData : ℕ)

/-- The requests of a class are numbered in the order in which they arrive.  The last three fields
are not in the code. -/
structure Worker where
  stopped : Bool
  closed : Bool
  queue : List ℕ
  pc : Pc
  arrived : ℕ
  executed : List ℕ
  deleted : List ℕ

/-- `malformed` requests have no class that is known; `rejected` is how many `enqueue` has deleted. -/
structure State where
  worker : Class → Worker
  server : Server
  malformed : ℕ
  rejected : ℕ

inductive Action where
  | receive (c : Option Class)
  | enqueue
  | push
  | stop (c : Class)
  | close (c : Class)
  | work (c : Class)

namespace Worker

variable (w : Worker)

/-- One step of `run`. -/
def work : Option Worker :=
  match w.pc with
  | .loop => some { w with pc := if w.stopped then .done else .pop }
  | .pop =>
    if w.closed then
      some { w with pc := .test none, queue := [], deleted := w.deleted ++ w.queue }
    else match w.queue with
      | r :: queue => some { w with pc := .test (some r), queue }
      -- waits for a signal
      | [] => none
  | .test requestData =>
    if w.stopped then some { w with pc := .done }
    -- NULL comes from a closed queue, and `close` comes after `stop`
    else requestData.map fun r => { w with pc := .execute r }
  | .execute r => some { w with pc := .delete r, executed := w.executed ++ [r] }
  | .delete r => some { w with pc := .loop, deleted := w.deleted ++ [r] }
  | .done => none

/-- The request that was popped and is not executed yet. -/
def pending : List ℕ :=
  match w.pc with
  | .test (some r) | .execute r => [r]
  | _ => []

/-- The request that was popped and is not deleted yet. -/
def held : List ℕ :=
  match w.pc with
  | .test (some r) | .execute r | .delete r => [r]
  | _ => []

/-- The next step is a test that finds the worker stopped. -/
def leaves : Bool :=
  match w.pc with
  | .loop | .test _ => w.stopped
  | _ => false

def executes : Bool :=
  match w.pc with
  | .execute _ => true
  | _ => false

end Worker

/-- The request in the hand of the server loop. -/
def Server.coming : Server → Class → List ℕ
  | .idle, _ => []
  | .enqueue d r, c | .push d r, c => if d = c then [r] else []

namespace State

def init : State := ⟨fun _ => ⟨false, false, [], .loop, 0, [], []⟩, .idle, 0, 0⟩

def set (s : State) (c : Class) (w : Worker) (server : Server) : State :=
  { s with worker := Function.update s.worker c w, server }

end State

def step : Action → State → Option State
  | .receive c, s =>
    match s.server, c with
    | .idle, none => some { s with malformed := s.malformed + 1, rejected := s.rejected + 1 }
    | .idle, some c =>
      let n := (s.worker c).arrived
      some (s.set c { s.worker c with arrived := n + 1 } (.enqueue c n))
    | _, _ => none
  | .enqueue, s =>
    match s.server with
    | .enqueue c r => some { s with server := if (s.worker c).stopped then .idle else .push c r }
    | _ => none
  | .push, s =>
    match s.server with
    | .push c r => some (s.set c { s.worker c with queue := (s.worker c).queue ++ [r] } .idle)
    | _ => none
  | .stop c, s => some (s.set c { s.worker c with stopped := true } s.server)
  | .close c, s =>
    if (s.worker c).stopped then some (s.set c { s.worker c with closed := true } s.server) else none
  | .work c, s => (s.worker c).work.map (s.set c · s.server)

/-- When the steps come. -/
def careful (s : State) : Action → Bool
  | .enqueue => match s.server with
    | .enqueue c _ => !(s.worker c).stopped
    | _ => true
  | .push => match s.server with
    | .push c _ => (s.worker c).pc ≠ .done
    | _ => true
  | .stop c => !(s.worker c).executes
  | .work c => (s.worker c).leaves → (s.worker c).held ++ (s.worker c).queue = []
  | _ => true

/-- Every request of a class is in one place: deleted, held by the worker, in the queue or `coming`. -/
structure Ok (w : Worker) (coming : List ℕ) : Prop where
  order : w.executed ++ (w.pending ++ (w.queue ++ coming)) <+ range w.arrived
  owned : w.deleted ++ (w.held ++ (w.queue ++ coming)) ~ range w.arrived
  done : w.pc = .done → w.queue = []
  execute : w.executes → w.stopped = false

namespace Ok

variable {w w' : Worker} {coming : List ℕ} {r : ℕ}

theorem work (h : Ok w coming) (hc : w.leaves → w.held ++ w.queue = []) (hw : w.work = some w') :
    Ok w' coming := by
  obtain ⟨stopped, closed, queue, pc, n, executed, deleted⟩ := w
  obtain ⟨order, owned, hdone, hexecute⟩ := h
  cases pc with
  | loop =>
    cases hw
    cases stopped with
    | false => exact ⟨order, owned, nofun, nofun⟩
    | true => exact ⟨order, owned, fun _ => (append_eq_nil_iff.mp (hc rfl)).2, nofun⟩
  | pop =>
    cases closed with
    | true =>
      cases hw
      refine ⟨?_, ?_, nofun, nofun⟩
      · exact (((sublist_append_right queue coming).append_left executed)).trans order
      · simpa [Worker.held] using owned
    | false =>
      cases queue with
      | nil => cases hw
      | cons r queue =>
        cases hw
        exact ⟨order, owned, nofun, nofun⟩
  | test requestData =>
    cases stopped with
    | true =>
      cases hw
      have hnone := append_eq_nil_iff.mp (hc rfl)
      cases requestData with
      | none => exact ⟨order, owned, fun _ => hnone.2, nofun⟩
      | some r => cases hnone.1
    | false =>
      cases requestData with
      | none => cases hw
      | some r =>
        cases hw
        exact ⟨order, owned, nofun, fun _ => rfl⟩
  | execute r =>
    cases hw
    refine ⟨?_, owned, nofun, nofun⟩
    simpa [Worker.pending] using order
  | delete r =>
    cases hw
    refine ⟨order, ?_, nofun, nofun⟩
    simpa [Worker.held] using owned
  | done => cases hw

theorem receive (h : Ok w []) : Ok { w with arrived := w.arrived + 1 } [w.arrived] := by
  obtain ⟨order, owned, hdone, hexecute⟩ := h
  refine ⟨?_, ?_, hdone, hexecute⟩
  · simpa [range_succ, Worker.pending] using order.append_right [w.arrived]
  · simpa [range_succ, Worker.held] using owned.append_right [w.arrived]

theorem push (h : Ok w [r]) (hw : w.pc ≠ .done) : Ok { w with queue := w.queue ++ [r] } [] := by
  obtain ⟨order, owned, hdone, hexecute⟩ := h
  refine ⟨?_, ?_, fun hd => absurd hd hw, hexecute⟩
  · simpa [Worker.pending] using order
  · simpa [Worker.held] using owned

end Ok

/-- The requests that no worker gets are deleted at once. -/
def Inv (s : State) : Prop :=
  (∀ c, Ok (s.worker c) (s.server.coming c)) ∧ s.rejected = s.malformed

theorem Inv.set {s : State} (h : Inv s) {c : Class} {w : Worker} {server : Server}
    (hw : Ok w (server.coming c)) (hserver : ∀ d ≠ c, server.coming d = s.server.coming d) :
    Inv (s.set c w server) := by
  refine ⟨fun d => ?_, h.2⟩
  by_cases hd : d = c
  · subst hd
    simpa [State.set] using hw
  · simpa [State.set, hd, hserver d hd] using h.1 d

theorem Inv.step {s s' : State} {a : Action} (h : Inv s) (hc : careful s a) (ha : step a s = some s') :
    Inv s' := by
  obtain ⟨worker, server, malformed, rejected⟩ := s
  cases a with
  | receive c =>
    cases server with
    | idle =>
      cases c with
      | none =>
        cases ha
        exact ⟨h.1, congrArg (· + 1) h.2⟩
      | some c =>
        cases ha
        refine h.set ?_ fun d hd => if_neg hd.symm
        rw [Server.coming, if_pos rfl]
        exact (h.1 c).receive
    | enqueue d r => cases c <;> cases ha
    | push d r => cases c <;> cases ha
  | enqueue =>
    cases server with
    | enqueue c r =>
      cases ha
      have hstopped : (worker c).stopped = false := by simpa [careful] using hc
      simp only [hstopped]
      exact h
    | idle => cases ha
    | push c r => cases ha
  | push =>
    cases server with
    | push c r =>
      cases ha
      have hok := h.1 c
      rw [Server.coming, if_pos rfl] at hok
      exact h.set (hok.push (of_decide_eq_true hc)) fun d hd => (if_neg hd.symm).symm
    | idle => cases ha
    | enqueue c r => cases ha
  | stop c =>
    cases ha
    obtain ⟨order, owned, hdone, _⟩ := h.1 c
    have hnot : (worker c).executes = false := by simpa [careful] using hc
    exact h.set ⟨order, owned, hdone, fun he => absurd he (by simp_all [Worker.executes])⟩ fun _ _ => rfl
  | close c =>
    obtain ⟨_, hs⟩ := Option.ite_none_right_eq_some.mp ha
    cases hs
    obtain ⟨order, owned, hdone, hexecute⟩ := h.1 c
    exact h.set ⟨order, owned, hdone, hexecute⟩ fun _ _ => rfl
  | work c =>
    obtain ⟨w, hw, rfl⟩ := Option.map_eq_some_iff.mp ha
    exact h.set ((h.1 c).work (of_decide_eq_true hc) hw) fun _ _ => rfl

theorem Inv.init : Inv .init :=
  ⟨fun _ => ⟨Sublist.refl [], Perm.refl [], nofun, nofun⟩, rfl⟩

/-- **The requests are executed in the order in which they arrive, none twice or after the stop; when
the worker has ended and none is on its way, each is deleted once.** -/
theorem deleted_once {l : List Action} {s : State}
    (hrun : run (only (fun s a => careful s a) step) l .init = some s) (c : Class) :
    (s.worker c).executed <+ range (s.worker c).arrived ∧
    ((s.worker c).executes → (s.worker c).stopped = false) ∧
    ((s.worker c).pc = .done → s.server.coming c = [] →
      (s.worker c).deleted ~ range (s.worker c).arrived) ∧
    s.rejected = s.malformed := by
  have h : Inv s := invariant_of_run (fun a s t hs ha =>
    have ⟨hc, hstep⟩ := only_eq_some.mp ha
    hs.step hc hstep) hrun Inv.init
  obtain ⟨order, owned, hdone, hexecute⟩ := h.1 c
  refine ⟨(sublist_append_left _ _).trans order, hexecute, fun hpc hcoming => ?_, h.2⟩
  simpa [Worker.held, hpc, hdone hpc, hcoming] using owned

/-- Two launch requests, and a shutdown after `n` steps of the worker. -/
def shutDownAfter (n : ℕ) : List Action :=
  [.receive (some .launch), .enqueue, .push, .receive (some .launch), .enqueue, .push] ++
    replicate n (.work .launch) ++ [.stop .launch, .close .launch] ++ replicate 2 (.work .launch)

theorem deleted_once_waiting :
    ∃ s, run (only (fun s a => careful s a) step) (shutDownAfter 11) .init = some s ∧
      (s.worker .launch).pc = .done ∧ (s.worker .launch).deleted ~ range 2 :=
  ⟨_, rfl, rfl, (deleted_once (l := shutDownAfter 11) rfl .launch).2.2.1 rfl rfl⟩

/-- **A request is lost**: the worker is stopped while it executes the one before. -/
theorem left_in_the_queue :
    ∃ s, run step (shutDownAfter 4) .init = some s ∧ (s.worker .launch).pc = .done ∧
      (s.worker .launch).deleted = [0] ∧ (s.worker .launch).arrived = 2 :=
  ⟨_, rfl, rfl, rfl, rfl⟩

end Aesm.Workers
