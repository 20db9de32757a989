/-
Sequences of checks that stop at the first error.

A function that checks its arguments and calls others which may fail is a `do` block in `Except ε`.
What it says about its result is read off block by block: a block has succeeded if the check
holds and the rest has succeeded.

* `require`, `ask` — a condition, and a call that may fail from outside;
* **`bind_eq_ok`**, `require_bind`, `ask_bind`, `mapError_eq_ok` — success of a block.
-/
import Mathlib.Logic.Basic

namespace Checks

universe u v

variable {ε ε' : Type u} {α β : Type u}

/-- The error `e` unless `p` holds. -/
def require (p : Prop) [Decidable p] (e : ε) : Except ε PUnit.{u + 1} :=
  if p then .ok ⟨⟩ else .error e

/-- A call that fails with the error that `f` has for it. -/
def ask {ι : Type v} (f : ι → Option ε) (c : ι) : Except ε PUnit.{u + 1} :=
  match f c with
  | none => .ok ⟨⟩
  | some e => .error e

theorem bind_eq_ok {x : Except ε α} {g : α → Except ε β} {r : β} :
    (x >>= g) = .ok r ↔ ∃ a, x = .ok a ∧ g a = .ok r := by
  cases x with
  | ok | error => simp [bind, Except.bind]

theorem require_bind {p : Prop} [Decidable p] {e : ε} {g : PUnit → Except ε α} {r : α} :
    (require p e >>= g) = .ok r ↔ p ∧ g ⟨⟩ = .ok r := by
  by_cases hp : p
  · simp [require, hp, bind, Except.bind]
  · simp [require, hp, bind, Except.bind]

theorem ask_bind {ι : Type v} {f : ι → Option ε} {c : ι} {g : PUnit → Except ε α} {r : α} :
    (ask f c >>= g) = .ok r ↔ f c = none ∧ g ⟨⟩ = .ok r := by
  rw [ask]
  cases f c with
  | none | some => simp [bind, Except.bind]

theorem require_eq_ok {p : Prop} [Decidable p] {e : ε} {r : PUnit} : require p e = .ok r ↔ p := by
  by_cases hp : p
  · simp [require, hp]
  · simp [require, hp]

theorem mapError_eq_ok {h : ε → ε'} {x : Except ε α} {r : α} : x.mapError h = .ok r ↔ x = .ok r := by
  cases x with
  | ok a => exact Iff.intro (fun heq => congrArg _ (Except.ok.inj heq)) (fun heq => congrArg _ (Except.ok.inj heq))
  | error e => exact Iff.intro nofun nofun

end Checks
