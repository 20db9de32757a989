/-
Functions that leave a log and may stop at an error.

`Logged E ε α` is what a function has done when it stops, a list of events, with its result or
the error it stopped at; the events before an error stay in the log.  `All P m` says that every
event satisfies `P`.  Its rules are equivalences, so that `simp` reads the events of a `do` block
off together with the checks in front of each.
-/
import LinuxSgx.Lib.Checks

/-- The events of a run and how it stopped. -/
structure Logged (E ε α : Type) where
  log : List E
  res : Except ε α

namespace Logged

variable {E ε α β : Type} {P : E → Prop}

instance : Monad (Logged E ε) where
  pure a := ⟨[], .ok a⟩
  bind m g :=
    match m.res with
    | .ok a => ⟨m.log ++ (g a).log, (g a).res⟩
    | .error e => ⟨m.log, .error e⟩

/-- An event. -/
def note (e : E) : Logged E ε Unit := ⟨[e], .ok ()⟩

/-- A check, which is no event. -/
def lift (x : Except ε α) : Logged E ε α := ⟨[], x⟩

/-- Every event satisfies `P`. -/
def All (P : E → Prop) (m : Logged E ε α) : Prop := ∀ e ∈ m.log, P e

@[simp] theorem all_note {e : E} : All P (note e : Logged E ε Unit) ↔ P e := by
  simp [All, note]

@[simp] theorem all_lift {x : Except ε α} : All P (lift x : Logged E ε α) := by
  simp [All, lift]

@[simp] theorem all_pure {a : α} : All P (pure a : Logged E ε α) := by
  simp [All, pure]

@[simp] theorem res_note {e : E} : (note e : Logged E ε Unit).res = .ok () :=
  rfl

@[simp] theorem res_lift {x : Except ε α} : (lift x : Logged E ε α).res = x :=
  rfl

variable {m : Logged E ε α} {g : α → Logged E ε β}

/-- **The rule for sequences.** -/
@[simp] theorem all_bind : All P (m >>= g) ↔ All P m ∧ ∀ a, m.res = .ok a → All P (g a) := by
  obtain ⟨log, res⟩ := m
  cases res with
  | ok a => simp [All, bind, or_imp, forall_and]
  | error e => simp [All, bind]

@[simp] theorem res_bind {b : β} :
    (m >>= g).res = .ok b ↔ ∃ a, m.res = .ok a ∧ (g a).res = .ok b := by
  obtain ⟨log, res⟩ := m
  cases res with
  | ok | error => simp [bind]

end Logged
