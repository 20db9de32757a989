/-
Ranges that follow each other without a gap.

A cursor that starts at `a`, handles one range after the other and ends at `b` leaves a list of
ranges `(start, length)`.  `Tiles a l b` says that the ranges, in this order, are a partition
of `[a, b)`.

* `tiles_append` — one walk after the other;
* **`Tiles.mem`** — every range lies inside of `[a, b)`.
-/
import Mathlib.Data.List.Basic
import Mathlib.Order.Basic

namespace Ranges

/-- The ranges start at `a`, each one where the last one stopped, and end at `b`. -/
def Tiles : ℕ → List (ℕ × ℕ) → ℕ → Prop
  | a, [], b => a = b
  | a, r :: l, b => r.1 = a ∧ Tiles (a + r.2) l b

variable {a b d : ℕ} {r : ℕ × ℕ} {l l' : List (ℕ × ℕ)}

@[simp] theorem tiles_nil : Tiles a [] b ↔ a = b := Iff.rfl

@[simp] theorem tiles_cons : Tiles a (r :: l) b ↔ r.1 = a ∧ Tiles (a + r.2) l b := Iff.rfl

theorem tiles_append : Tiles a (l ++ l') d ↔ ∃ b, Tiles a l b ∧ Tiles b l' d := by
  induction l generalizing a with
  | nil => simp
  | cons r l ih =>
    rw [List.cons_append, tiles_cons, ih]
    constructor
    · rintro ⟨hr, b, hl, hl'⟩
      exact ⟨b, ⟨hr, hl⟩, hl'⟩
    · rintro ⟨b, ⟨hr, hl⟩, hl'⟩
      exact ⟨hr, b, hl, hl'⟩

theorem Tiles.le (h : Tiles a l b) : a ≤ b := by
  induction l generalizing a with
  | nil => exact Nat.le_of_eq h
  | cons r l ih => exact Nat.le_trans (Nat.le_add_right a r.2) (ih h.2)

/-- No range leaves `[a, b)`. -/
theorem Tiles.mem (h : Tiles a l b) (hr : r ∈ l) : a ≤ r.1 ∧ r.1 + r.2 ≤ b := by
  obtain ⟨l₁, l₂, rfl⟩ := List.append_of_mem hr
  obtain ⟨m, h₁, hstart, h₂⟩ := tiles_append.mp h
  rw [hstart]
  exact ⟨h₁.le, h₂.le⟩

end Ranges
