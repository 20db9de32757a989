/-
Calling a function once (`sl_once.h`).

The control word and the result are shared.  A call reads the word, tries to exchange it
for `STATE_CALLING`, and the one that succeeds runs its function; the others spin until the
word is `STATE_CALLED`.  Each access to the word or to the result is a step of its own, and
the steps of all calls are interleaved in any order.  A call that a running function makes
on the same word is one more call.

* `Ok` — the life of the control word;
* **`call_once`** — the function is run once, and everybody returns its result.
-/
import LinuxSgx.Lib.Runs

open Runs

namespace Switchless

/-! ### The calls -/

/-- `state` -/
inductive OnceState where
  | noCall
  | calling
  | called
  deriving DecidableEq, Repr

/-- Where a call of `sl_call_once` is; results are of type `V`. -/
inductive OncePc (V : Type) where
  | idle
  /-- `if (once->state == STATE_NO_CALL)` -/
  | check
  /-- `lock_cmpxchg` -/
  | exchange
  /-- The call of `func`. -/
  | call
  /-- `func` runs. -/
  | running
  /-- `once->ret = ` -/
  | storeRet (v : V)
  /-- `once->state = STATE_CALLED` -/
  | storeState (v : V)
  /-- `while (once->state == STATE_CALLING)` -/
  | wait
  /-- `return once->ret` -/
  | load
  | returned (v : V)
  deriving DecidableEq, Repr

/-- The control word, the calls, and what was run: how often a function was started, and the
results of those that have ended. -/
structure Once (V : Type) where
  state : OnceState
  ret : V
  pc : ℕ → OncePc V
  started : ℕ
  results : List V

/-- `SL_ONCE_INITIALIZER`; the calls have not been made. -/
def Once.initial {V : Type} (ret : V) : Once V where
  state := .noCall
  ret
  pc _ := .idle
  started := 0
  results := []

/-- The next step of a call, or the end of the function it runs. -/
inductive OnceAct (V : Type) where
  | step
  | finish (v : V)
  deriving DecidableEq, Repr

variable {V : Type}

def Once.at (s : Once V) (c : ℕ) (pc : OncePc V) : Once V :=
  { s with pc := Function.update s.pc c pc }

def slCallOnce (a : ℕ × OnceAct V) (s : Once V) : Option (Once V) :=
  match s.pc a.1, a.2 with
  | .idle, .step => some (s.at a.1 .check)
  | .check, .step =>
    some (s.at a.1 (if s.state = .noCall then .exchange else .wait))
  | .exchange, .step =>
    if s.state = .noCall then some ({ s with state := .calling }.at a.1 .call)
    else some (s.at a.1 .wait)
  | .call, .step => some ({ s with started := s.started + 1 }.at a.1 .running)
  | .running, .finish v => some ({ s with results := s.results ++ [v] }.at a.1 (.storeRet v))
  | .storeRet v, .step => some ({ s with ret := v }.at a.1 (.storeState v))
  | .storeState _, .step => some ({ s with state := .called }.at a.1 .wait)
  | .wait, .step => some (if s.state = .calling then s else s.at a.1 .load)
  | .load, .step => some (s.at a.1 (.returned s.ret))
  | _, _ => none

/-! ### The life of the control word -/

/-- A call that has neither won nor seen the end. -/
def OncePc.Early (pc : OncePc V) : Prop := pc = .idle ∨ pc = .check ∨ pc = .exchange

/-- A call that lost, or has not tried yet. -/
def OncePc.Loses (pc : OncePc V) : Prop := pc.Early ∨ pc = .wait

/-- The call that won, with what it has run so far. -/
def OncePc.Wins (s : Once V) : OncePc V → Prop
  | .call => s.started = 0 ∧ s.results = []
  | .running => s.started = 1 ∧ s.results = []
  | .storeRet v => s.started = 1 ∧ s.results = [v]
  | .storeState v => s.started = 1 ∧ s.results = [v] ∧ s.ret = v
  | _ => False

/-- A call after the function has ended with `v`. -/
def OncePc.Sees (v : V) (pc : OncePc V) : Prop := pc.Loses ∨ pc = .load ∨ pc = .returned v

inductive Ok (s : Once V) : Prop
  | before (hstate : s.state = .noCall) (hstarted : s.started = 0) (hresults : s.results = [])
      (hpc : ∀ c, (s.pc c).Early)
  | during (w : ℕ) (hstate : s.state = .calling) (hwin : (s.pc w).Wins s)
      (hpc : ∀ c, c ≠ w → (s.pc c).Loses)
  | after (hstate : s.state = .called) (hstarted : s.started = 1) (hresults : s.results = [s.ret])
      (hpc : ∀ c, (s.pc c).Sees s.ret)

section Steps

variable {s s' : Once V} {c : ℕ} {pc : OncePc V}

@[simp] theorem pc_at_self (s : Once V) (c : ℕ) (pc : OncePc V) : (s.at c pc).pc c = pc := by
  simp only [Once.at, Function.update_self]

theorem pc_at_of_ne {d : ℕ} (h : d ≠ c) : (s.at c pc).pc d = s.pc d := by
  simp only [Once.at, Function.update_of_ne h]

/-- A property of all calls after a step of one of them. -/
theorem forall_pc_at {P : OncePc V → Prop} (h : ∀ d, d ≠ c → P (s.pc d)) (hc : P pc) (d : ℕ) :
    P ((s.at c pc).pc d) := by
  by_cases hd : d = c
  · rw [hd, pc_at_self]
    exact hc
  · rw [pc_at_of_ne hd]
    exact h d hd

/-- The winner takes a step of its own; the others are as before. -/
theorem ok_of_winner {s₁ : Once V} (hstate : s₁.state = .calling) (hpc : s₁.pc = s.pc)
    (hlose : ∀ d, d ≠ c → (s.pc d).Loses) (hwin : pc.Wins (s₁.at c pc)) : Ok (s₁.at c pc) := by
  refine .during c hstate (by rwa [pc_at_self]) fun d hd => ?_
  rw [pc_at_of_ne hd, hpc]
  exact hlose d hd

/-- Somebody other than the winner takes a step. -/
theorem ok_of_loser {w : ℕ} (hne : c ≠ w) (hstate : s.state = .calling) (hwin : (s.pc w).Wins s)
    (hpc : ∀ d, d ≠ w → (s.pc d).Loses) (hc : pc.Loses) : Ok (s.at c pc) := by
  refine .during w hstate ?_ fun d hd => ?_
  · rw [pc_at_of_ne hne.symm]
    exact hwin
  · by_cases hdc : d = c
    · rw [hdc, pc_at_self]
      exact hc
    · rw [pc_at_of_ne hdc]
      exact hpc d hd

/-- One step of one call. -/
theorem ok_slCallOnce {a : ℕ × OnceAct V} (h : Ok s) (hstep : slCallOnce a s = some s') : Ok s' := by
  obtain ⟨c, act⟩ := a
  rw [slCallOnce] at hstep
  cases h with
  | before hstate hstarted hresults hpc =>
    have hearly : ∀ {pc : OncePc V}, pc.Early → Ok (s.at c pc) := fun hc =>
      .before hstate hstarted hresults (forall_pc_at (fun d _ => hpc d) hc)
    rcases hpc c with hp | hp | hp <;> cases act <;>
      simp only [hp, hstate, if_true, Option.some.injEq, reduceCtorEq] at hstep <;> subst hstep
    · exact hearly (.inr (.inl rfl))
    · exact hearly (.inr (.inr rfl))
    · exact ok_of_winner rfl rfl (fun d _ => .inl (hpc d)) ⟨hstarted, hresults⟩
  | during w hstate hwin hpc =>
    by_cases hcw : c = w
    · subst hcw
      cases hp : s.pc c <;> rw [hp] at hwin <;> try exact hwin.elim
      all_goals
        cases act <;> simp only [hp, Option.some.injEq, reduceCtorEq] at hstep
        subst hstep
      · exact ok_of_winner hstate rfl hpc ⟨congrArg (· + 1) hwin.1, hwin.2⟩
      · exact ok_of_winner hstate rfl hpc ⟨hwin.1, by rw [hwin.2]; rfl⟩
      · exact ok_of_winner hstate rfl hpc ⟨hwin.1, hwin.2, rfl⟩
      · refine .after rfl hwin.1 (by rw [← hwin.2.2] at hwin; exact hwin.2.1) ?_
        exact forall_pc_at (fun d hd => .inl (hpc d hd)) (.inl (.inr rfl))
    · have hlose : ∀ {pc : OncePc V}, pc.Loses → Ok (s.at c pc) := fun hc =>
        ok_of_loser hcw hstate hwin hpc hc
      rcases hpc c hcw with (hp | hp | hp) | hp <;> cases act <;>
        simp only [hp, hstate, if_true, if_false, Option.some.injEq, reduceCtorEq] at hstep <;>
        subst hstep
      · exact hlose (.inl (.inr (.inl rfl)))
      · exact hlose (.inr rfl)
      · exact hlose (.inr rfl)
      · exact .during w hstate hwin hpc
  | after hstate hstarted hresults hpc =>
    have hsees : ∀ {pc : OncePc V}, pc.Sees s.ret → Ok (s.at c pc) := fun hc =>
      .after hstate hstarted hresults (forall_pc_at (fun d _ => hpc d) hc)
    rcases hpc c with ((hp | hp | hp) | hp) | hp | hp <;> cases act <;>
      simp only [hp, hstate, if_false, Option.some.injEq, reduceCtorEq] at hstep <;> subst hstep
    · exact hsees (.inl (.inl (.inr (.inl rfl))))
    · exact hsees (.inl (.inr rfl))
    · exact hsees (.inl (.inr rfl))
    · exact hsees (.inr (.inl rfl))
    · exact hsees (.inr (.inr rfl))

theorem ok_initial (ret : V) : Ok (Once.initial ret) :=
  .before rfl rfl rfl fun _ => .inl rfl

theorem ok_run {ret : V} {l : List (ℕ × OnceAct V)}
    (h : run slCallOnce l (Once.initial ret) = some s) : Ok s :=
  invariant_of_run (fun _ _ _ hok hstep => ok_slCallOnce hok hstep) h (ok_initial ret)

/-! ### Progress

Nobody waits forever if the function ends: the winner can always go on, and after it
everybody. -/

/-- `s'` can be reached by steps of the calls, in which functions end with `v`. -/
def Reaches (s s' : Once V) : Prop := ∃ l, run slCallOnce l s = some s'

theorem Reaches.refl (s : Once V) : Reaches s s := ⟨[], rfl⟩

theorem Reaches.head {a : ℕ × OnceAct V} {s₁ : Once V} (h : slCallOnce a s = some s₁)
    (h' : Reaches s₁ s') : Reaches s s' := by
  obtain ⟨l, hl⟩ := h'
  exact ⟨a :: l, run_cons.mpr ⟨s₁, h, hl⟩⟩

theorem Reaches.trans {s'' : Once V} (h : Reaches s s') (h' : Reaches s' s'') : Reaches s s'' := by
  obtain ⟨l, hl⟩ := h
  obtain ⟨l', hl'⟩ := h'
  exact ⟨l ++ l', run_append.mpr ⟨s', hl, hl'⟩⟩

/-- After the end of the function, a call that has been made returns. -/
theorem returns_of_called (hstate : s.state = .called) (hc : (s.pc c).Sees s.ret)
    (hne : s.pc c ≠ .idle) : ∃ s' v, Reaches s s' ∧ s'.pc c = .returned v := by
  have hload : ∀ {s : Once V}, s.pc c = .load → ∃ s' v, Reaches s s' ∧ s'.pc c = .returned v := by
    intro s hp
    refine ⟨s.at c (.returned s.ret), s.ret, .head (a := (c, .step)) ?_ (.refl _), pc_at_self _ _ _⟩
    simp only [slCallOnce, hp]
  have hwait : ∀ {s : Once V}, s.state = .called → s.pc c = .wait →
      ∃ s' v, Reaches s s' ∧ s'.pc c = .returned v := by
    intro s hstate hp
    obtain ⟨s', v, hreach, hv⟩ := hload (pc_at_self s c .load)
    refine ⟨s', v, .head (a := (c, .step)) ?_ hreach, hv⟩
    simp only [slCallOnce, hp, hstate, if_false, reduceCtorEq]
  have htowait : slCallOnce (c, .step) s = some (s.at c .wait) →
      ∃ s' v, Reaches s s' ∧ s'.pc c = .returned v := by
    intro hstep
    obtain ⟨s', v, hreach, hv⟩ := hwait (s := s.at c .wait) hstate (pc_at_self s c .wait)
    exact ⟨s', v, .head hstep hreach, hv⟩
  rcases hc with ((hp | hp | hp) | hp) | hp | hp
  · exact absurd hp hne
  · exact htowait (by simp only [slCallOnce, hp, hstate, if_false, reduceCtorEq])
  · exact htowait (by simp only [slCallOnce, hp, hstate, if_false, reduceCtorEq])
  · exact hwait hstate hp
  · exact hload hp
  · exact ⟨s, s.ret, .refl s, hp⟩

/-- Call `c` can come to the end of its part while the others stand still. -/
def Ends (c : ℕ) (s : Once V) : Prop :=
  ∃ s', Reaches s s' ∧ s'.state = .called ∧ s'.pc c = .wait ∧ ∀ d, d ≠ c → s'.pc d = s.pc d

theorem Ends.head (a : OnceAct V) (s₁ : Once V) (pc : OncePc V) (hpc : s₁.pc = s.pc)
    (h : Ends c (s₁.at c pc)) (hstep : slCallOnce (c, a) s = some (s₁.at c pc)) : Ends c s := by
  obtain ⟨s', hreach, hstate, hwait, hother⟩ := h
  refine ⟨s', .head hstep hreach, hstate, hwait, fun d hd => ?_⟩
  rw [hother d hd, pc_at_of_ne hd, hpc]

/-- The winner comes to the end of its part, if its function ends with `v`. -/
theorem ends_of_wins (v : V) (hwin : (s.pc c).Wins s) : Ends c s := by
  have hstate : ∀ {s : Once V} {v : V}, s.pc c = .storeState v → Ends c s := by
    intro s v hp
    refine ⟨{ s with state := .called }.at c .wait, .head (a := (c, .step)) ?_ (.refl _), rfl,
      pc_at_self _ _ _, fun d hd => pc_at_of_ne hd⟩
    simp only [slCallOnce, hp]
  have hret : ∀ {s : Once V} {v : V}, s.pc c = .storeRet v → Ends c s := by
    intro s v hp
    refine Ends.head .step { s with ret := v } (.storeState v) rfl (hstate (pc_at_self _ _ _)) ?_
    simp only [slCallOnce, hp]
  have hrun : ∀ {s : Once V}, s.pc c = .running → Ends c s := by
    intro s hp
    refine Ends.head (.finish v) { s with results := s.results ++ [v] } (.storeRet v) rfl
      (hret (pc_at_self _ _ _)) ?_
    simp only [slCallOnce, hp]
  cases hp : s.pc c <;> rw [hp] at hwin <;> try exact hwin.elim
  · refine Ends.head .step { s with started := s.started + 1 } .running rfl
      (hrun (pc_at_self _ _ _)) ?_
    simp only [slCallOnce, hp]
  · exact hrun hp
  · exact hret hp
  · exact hstate hp

/-- A call that has been made can return, if functions end. -/
theorem returns_of_ok (v : V) (h : Ok s) (hne : s.pc c ≠ .idle) :
    ∃ s' r, Reaches s s' ∧ s'.pc c = .returned r := by
  have hafter : ∀ {s : Once V}, Ok s → s.state = .called → s.pc c ≠ .idle →
      ∃ s' r, Reaches s s' ∧ s'.pc c = .returned r := by
    intro s h hstate hne
    cases h with
    | before hno | during w hno => rw [hstate] at hno; cases hno
    | after _ _ _ hpc => exact returns_of_called hstate (hpc c) hne
  have hends : ∀ {s : Once V} {w : ℕ}, Ok s → (s.pc w).Wins s → s.pc c ≠ .idle →
      ∃ s' r, Reaches s s' ∧ s'.pc c = .returned r := by
    intro s w h hwin hne
    obtain ⟨s₁, ⟨l, hl⟩, hstate, hwait, hother⟩ := ends_of_wins v hwin
    have hok := invariant_of_run (fun _ _ _ hok hstep => ok_slCallOnce hok hstep) hl h
    have hne₁ : s₁.pc c ≠ .idle := by
      by_cases hc : c = w
      · rw [hc, hwait]
        simp
      · rw [hother c hc]
        exact hne
    obtain ⟨s', r, hreach, hr⟩ := hafter hok hstate hne₁
    exact ⟨s', r, .trans ⟨l, hl⟩ hreach, hr⟩
  have hwins : ∀ {s : Once V}, Ok s → s.state = .noCall → s.pc c = .exchange →
      ∃ s' r, Reaches s s' ∧ s'.pc c = .returned r := by
    intro s h hno hp
    have hstep : slCallOnce (c, .step) s = some ({ s with state := .calling }.at c .call) := by
      simp only [slCallOnce, hp, hno, if_true]
    have hok := ok_slCallOnce h hstep
    cases hok with
    | before hno' => cases hno'
    | during w _ hwin _ =>
      obtain ⟨s', r, hreach, hr⟩ := hends (ok_slCallOnce h hstep) hwin (by simp)
      exact ⟨s', r, .head hstep hreach, hr⟩
    | after hno' => cases hno'
  cases h with
  | before hno hstarted hresults hpc =>
    have hok : Ok s := .before hno hstarted hresults hpc
    rcases hpc c with hp | hp | hp
    · exact absurd hp hne
    · have hstep : slCallOnce (c, .step) s = some (s.at c .exchange) := by
        simp only [slCallOnce, hp, hno, if_true]
      obtain ⟨s', r, hreach, hr⟩ := hwins (ok_slCallOnce hok hstep) hno (pc_at_self _ _ _)
      exact ⟨s', r, .head hstep hreach, hr⟩
    · exact hwins hok hno hp
  | during w hstate hwin hpc => exact hends (.during w hstate hwin hpc) hwin hne
  | after hstate hstarted hresults hpc => exact returns_of_called hstate (hpc c) hne

end Steps

/-- In every interleaving of any number of calls: no function is started a second time; a
call that has returned `v` returned after a function was run, which ended with `v`; and a
call that has been made can still return, provided that the function that runs ends. -/
theorem call_once {ret : V} {l : List (ℕ × OnceAct V)} {s : Once V}
    (h : run slCallOnce l (Once.initial ret) = some s) :
    s.started ≤ 1 ∧ (∀ c v, s.pc c = .returned v → s.started = 1 ∧ s.results = [v]) ∧
      ∀ c, s.pc c ≠ .idle → ∃ s' v, Reaches s s' ∧ s'.pc c = .returned v := by
  have hok := ok_run h
  refine ⟨?_, fun c v hc => ?_, fun c hc => returns_of_ok ret hok hc⟩
  · cases hok with
    | before | after => omega
    | during w _ hwin =>
      cases hp : s.pc w <;> rw [hp] at hwin <;> try exact hwin.elim
      all_goals
        have := hwin.1
        omega
  · cases hok with
    | before _ _ _ hpc =>
      have := hpc c
      simp [hc, OncePc.Early] at this
    | during w _ hwin hpc =>
      by_cases hcw : c = w
      · subst hcw
        rw [hc] at hwin
        exact hwin.elim
      · have := hpc c hcw
        simp [hc, OncePc.Loses, OncePc.Early] at this
    | after _ hstarted hresults hpc =>
      have := hpc c
      simp only [hc, OncePc.Sees, OncePc.Loses, OncePc.Early, reduceCtorEq, false_or,
        OncePc.returned.injEq] at this
      rw [this]
      exact ⟨hstarted, hresults⟩

/-- Two calls, of which the second arrives while the first one's function runs. -/
theorem call_once_two_calls :
    ∃ s, run slCallOnce [(0, .step), (0, .step), (0, .step), (1, .step), (0, .step), (1, .step),
        (1, .step), (0, .finish 7), (0, .step), (1, .step), (0, .step), (1, .step), (1, .step)]
        (Once.initial 0) = some s ∧
      s.pc 1 = .returned 7 ∧ s.started = 1 ∧ s.results = [7] := by
  have hval : (run slCallOnce [(0, .step), (0, .step), (0, .step), (1, .step), (0, .step),
      (1, .step), (1, .step), (0, .finish 7), (0, .step), (1, .step), (0, .step), (1, .step),
      (1, .step)] (Once.initial 0)).map (fun s => s.pc 1) = some (.returned 7) := by
    decide
  obtain ⟨s, hs, hpc⟩ := Option.map_eq_some_iff.mp hval
  obtain ⟨-, hret, -⟩ := call_once hs
  exact ⟨s, hs, hpc, hret 1 7 hpc⟩

end Switchless
