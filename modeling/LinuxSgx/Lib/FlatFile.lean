/-
Flat files: sequences that are read and written in place.

`overwrite b p d` puts `d` at position `p` of `b`, growing the sequence when it
reaches past the end; `slice b p n` is the part of `b` from `p` on, at most `n`
long.  Pieces that are read one after the other add up (`slice_add`).
-/
import Mathlib

namespace FlatFile

variable {α : Type} {b d d' : List α} {p n m : ℕ}

/-- Put `d` at position `p`. -/
def overwrite (b : List α) (p : ℕ) (d : List α) : List α := b.take p ++ d ++ b.drop (p + d.length)

/-- The elements from position `p` on, at most `n`. -/
def slice (b : List α) (p n : ℕ) : List α := (b.drop p).take n

theorem getElem?_overwrite (h : p ≤ b.length) (i : ℕ) :
    (overwrite b p d)[i]? =
      if i < p then b[i]? else if i < p + d.length then d[i - p]? else b[i]? := by
  have hlen : (b.take p).length = p := by
    rw [List.length_take]
    omega
  rw [overwrite, List.append_assoc, List.getElem?_append, hlen]
  by_cases hi : i < p
  · rw [if_pos hi, if_pos hi, List.getElem?_take, if_pos hi]
  · rw [if_neg hi, if_neg hi, List.getElem?_append]
    by_cases hd : i < p + d.length
    · rw [if_pos hd, if_pos (by omega)]
    · rw [if_neg hd, if_neg (by omega), List.getElem?_drop]
      congr 1
      omega

/-- Two pieces read one after the other are one piece. -/
theorem slice_add (b : List α) (p n m : ℕ) :
    slice b p (n + m) = slice b p n ++ slice b (p + n) m := by
  unfold slice
  rw [List.take_add, List.drop_drop]

theorem length_slice (b : List α) (p n : ℕ) : (slice b p n).length = min n (b.length - p) := by
  unfold slice
  rw [List.length_take, List.length_drop]

end FlatFile
