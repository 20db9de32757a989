/-
Events (`se_event.c`).

An event is a counter and a futex on it.  A wait subtracts one and sleeps if the counter was zero; a
wake adds one and calls `FUTEX_WAKE` if it was not.  One thread waits here and any number of
threads wake it; each access to the counter and each call of the futex is a step.

* `System`, `step` — the event, its threads and which wakes have been consumed;
* **`events_iff`** — a run loses and invents no wake-up just when all its steps are `Careful`;
* **`invented_wakeup`** — a late `FUTEX_WAKE` ends a wait that no wake has come for.
-/
import LinuxSgx.Lib.Runs
import Mathlib.Algebra.Group.Int.Defs
import Mathlib.Algebra.Group.Nat.Defs
import Mathlib.Tactic.MkIffOfInductiveProp

open Runs

namespace Common.Event

/-- How a futex wait ends. -/
inductive End where
  | woken
  | mismatch
  | timeout
  | signal
  deriving DecidableEq

/-- The wait was timed out or interrupted. -/
def End.early : End → Bool
  | .timeout | .signal => true
  | _ => false

/-- Where the waiting thread is: outside, in front of `FUTEX_WAIT`, asleep in it, or, with a timeout
only, in front of the compare-and-swap. -/
inductive Pc where
  | idle
  | futex (timed : Bool)
  | asleep (timed : Bool)
  | reset (e : End)
  deriving DecidableEq

/-- The counter, the threads in front of `FUTEX_WAKE`, and how many wakes there were and have been
consumed. -/
structure System where
  value : ℤ
  pc : Pc
  waking : ℕ
  wakes : ℕ
  consumed : ℕ
  deriving DecidableEq

inductive Action where
  | wait (timeout : ℕ)
  | futexWait
  | timeout
  | signal
  | reset
  | wake
  | futexWake
  deriving DecidableEq

/-- `se_event_init`. -/
def init : System := ⟨0, .idle, 0, 0, 0⟩

/-- The addition of `int`. -/
def add (v d : ℤ) : ℤ := (v + d).bmod (2 ^ 32)

namespace System

variable (s : System)

/-- The wait returns.  It has consumed a wake, unless it ends early and none has come. -/
def returns (e : End) : System :=
  { s with pc := .idle, consumed := s.consumed + if e.early ∧ s.value = -1 then 0 else 1 }

/-- The futex wait has ended. -/
def ended (timed : Bool) (e : End) : System :=
  if timed then { s with pc := .reset e } else s.returns e

end System

/-- One access to the counter or one call of the futex. -/
def step (a : Action) (s : System) : Option System :=
  match a, s.pc with
  | .wait timeout, .idle =>
    let s' := { s with value := add s.value (-1) }
    if s.value = 0 then some { s' with pc := .futex (timeout ≠ 0) }
    else some { s' with consumed := s.consumed + 1 }
  | .futexWait, .futex timed =>
    if s.value = -1 then some { s with pc := .asleep timed } else some (s.ended timed .mismatch)
  | .timeout, .asleep true => some (s.ended true .timeout)
  | .signal, .asleep timed => some (s.ended timed .signal)
  | .reset, .reset e =>
    some { s.returns e with value := if s.value = -1 then 0 else s.value }
  | .wake, _ =>
    some { s with
      value := add s.value 1
      wakes := s.wakes + 1
      waking := if s.value ≠ 0 then s.waking + 1 else s.waking }
  | .futexWake, pc =>
    if s.waking = 0 then none
    else
      let s' := { s with waking := s.waking - 1 }
      match pc with
      | .asleep timed => some (s'.ended timed .woken)
      | _ => some s'
  | _, _ => none

/-- The counter is the number of unconsumed wakes, one less during a wait; and the waiter is
asleep only while there is none or a thread is about to wake it. -/
@[mk_iff] structure Good (s : System) : Prop where
  value : s.value = s.wakes - s.consumed - if s.pc = .idle then 0 else 1
  consumed : s.consumed ≤ s.wakes
  asleep : ∀ timed, s.pc = .asleep timed → s.wakes = s.consumed ∨ 0 < s.waking
  int : s.value < 2 ^ 31

/-- A wait without a timeout is not interrupted before a wake has come, a thread that calls
`FUTEX_WAKE` late does not meet a later wait, and the counter does not overflow. -/
def Careful (s : System) : Action → Prop
  | .wake => s.value < 2 ^ 31 - 1
  | .signal | .futexWake => s.pc = .asleep false → s.value ≠ -1
  | .reset => ∀ e, s.pc = .reset e → e.early = false → s.value ≠ -1
  | _ => True

theorem add_eq_iff {v d : ℤ} : add v d = v + d ↔ -2 ^ 31 ≤ v + d ∧ v + d < 2 ^ 31 := by
  rw [add, Int.bmod_def]
  split <;> omega

theorem add_lt (v d : ℤ) : add v d < 2 ^ 31 := by
  rw [add, Int.bmod_def]
  split <;> omega

variable {s s' : System} {a : Action}

/-- A futex wait may end a wait without a timeout if the counter is not `-1`; with a timeout it goes
on to the compare-and-swap. -/
theorem good_ended_iff {e : End} {timed : Bool} {waking : ℕ} (h : Good s) (hpc : s.pc ≠ .idle) :
    Good ({ s with waking }.ended timed e) ↔ (timed = false → s.value ≠ -1) := by
  have hv := h.value
  have hc := h.consumed
  rw [if_neg hpc] at hv
  cases timed with
  | true => exact iff_of_true ⟨by simpa [System.ended] using hv, hc, nofun, h.int⟩ nofun
  | false =>
    simp only [System.ended, Bool.false_eq_true, if_false, good_iff, System.returns, if_true,
      reduceCtorEq, false_implies, implies_true, h.int, true_implies]
    split_ifs <;> simp only [and_true] <;> omega

/-- **One step** from a good state leads to a good one just when it is careful. -/
theorem good_step_iff (h : Good s) (hstep : step a s = some s') : Good s' ↔ Careful s a := by
  have hv := h.value
  have hc := h.consumed
  have hlt := h.int
  cases a with
  | wait timeout =>
    cases hpc : s.pc <;> simp only [step, hpc, reduceCtorEq] at hstep
    rw [hpc, if_pos rfl] at hv
    have hadd : add s.value (-1) = s.value + -1 := add_eq_iff.mpr (by omega)
    refine iff_of_true ?_ trivial
    split_ifs at hstep with hzero
    · cases hstep
      exact ⟨by simp; omega, hc, nofun, by simp; omega⟩
    · cases hstep
      refine ⟨?_, ?_, ?_, ?_⟩ <;> simp <;> omega
  | futexWait =>
    cases hpc : s.pc <;> simp only [step, hpc, reduceCtorEq] at hstep
    split_ifs at hstep with hneg
    · cases hstep
      rw [hpc, if_neg nofun] at hv
      have hnone : s.wakes = s.consumed := by omega
      exact iff_of_true ⟨hv, hc, fun _ _ => .inl hnone, hlt⟩ trivial
    · cases hstep
      exact iff_of_true ((good_ended_iff h (hpc ▸ nofun)).mpr fun _ => hneg) trivial
  | timeout =>
    cases hpc : s.pc with
    | asleep timed =>
      cases timed <;> simp only [step, hpc, reduceCtorEq] at hstep
      cases hstep
      exact iff_of_true ((good_ended_iff h (hpc ▸ nofun)).mpr nofun) trivial
    | _ => simp [step, hpc] at hstep
  | signal =>
    cases hpc : s.pc <;> simp only [step, hpc, reduceCtorEq] at hstep
    cases hstep
    rw [Careful, hpc, Pc.asleep.injEq]
    exact good_ended_iff h (hpc ▸ nofun)
  | reset =>
    cases hpc : s.pc <;> simp only [step, hpc, reduceCtorEq] at hstep
    rename_i e
    cases hstep
    rw [hpc, if_neg nofun] at hv
    by_cases hneg : s.value = -1
    · -- the counter is restored; a wait that did not end early has nothing consumed
      simp [good_iff, System.returns, Careful, hpc, hneg]
      cases e.early <;> simp <;> omega
    · simp [good_iff, System.returns, Careful, hpc, hneg]
      omega
  | wake =>
    cases hstep
    have hadd : add s.value 1 = s.value + 1 ↔ s.value < 2 ^ 31 - 1 := by
      rw [add_eq_iff]
      split_ifs at hv <;> omega
    refine Iff.trans ⟨fun h' => ?_, fun heq => ⟨?_, Nat.le_succ_of_le hc, ?_, add_lt _ _⟩⟩ hadd
    · have hv' := h'.value
      simp only [Int.natCast_add, Int.cast_ofNat_Int] at hv'
      omega
    · simp only [Int.natCast_add, Int.cast_ofNat_Int]
      omega
    · intro timed hpc
      right
      split_ifs with hzero
      · exact Nat.succ_pos _
      · -- the counter was zero: there was a wake already, and a thread in front of `FUTEX_WAKE`
        rw [show s.pc = .asleep timed from hpc, if_neg nofun] at hv
        exact (h.asleep timed hpc).resolve_left (by omega)
  | futexWake =>
    simp only [step] at hstep
    split_ifs at hstep
    cases hpc : s.pc with
    | asleep timed =>
      rw [hpc] at hstep
      cases hstep
      rw [Careful, hpc, Pc.asleep.injEq]
      exact good_ended_iff h (hpc ▸ nofun)
    | _ =>
      rw [hpc] at hstep
      cases hstep
      rw [hpc] at hv
      rw [Careful, hpc]
      exact iff_of_true ⟨hv, hc, nofun, hlt⟩ nofun

/-- **Events.**  In a run of one waiting thread and any number of waking ones, in any order, no wake-up
is lost or invented in any state reached, just when all its steps are careful. -/
theorem events_iff {l : List Action} (h : run step l init = some s) :
    (∀ pre t, pre <+: l → run step pre init = some t → Good t) ↔
      ∀ pre a t, pre ++ [a] <+: l → run step pre init = some t → Careful t a :=
  forall_reached_iff (I := fun _ => True) trivial ⟨rfl, Nat.le_refl 0, nofun, by decide⟩
    (fun _ _ _ _ _ => trivial) (fun _ _ _ _ => good_step_iff) h

/-- A wait with a timeout ends by it, and a wake comes for the next one. -/
def calm : List Action :=
  [.wait 5, .futexWait, .timeout, .reset, .wait 0, .futexWait, .wake, .futexWake]

theorem events_iff_calm : ∃ s, run step calm init = some s ∧
    ((∀ pre t, pre <+: calm → run step pre init = some t → Good t) ↔
      ∀ pre a t, pre ++ [a] <+: calm → run step pre init = some t → Careful t a) := by
  obtain ⟨s, hs⟩ := Option.isSome_iff_exists.mp (by decide : (run step calm init).isSome = true)
  exact ⟨s, hs, events_iff hs⟩

/-- The second of two wakes calls `FUTEX_WAKE` only after both have been consumed: the third wait,
for which there is no wake, returns, and leaves the counter at `-1`. -/
theorem invented_wakeup : ∃ s,
    run step [.wake, .wake, .wait 0, .wait 0, .wait 0, .futexWait, .futexWake] init = some s ∧
      s.pc = .idle ∧ s.wakes = 2 ∧ s.consumed = 3 ∧ s.value = -1 :=
  ⟨_, rfl, by decide⟩

end Common.Event
