/-
Sorted lists of disjoint extents.

An extent is a half-open range of addresses that carries a tag.  A `Sorted` list
of extents stands for the partial map `tagAt` from addresses to tags, and each
way of editing the list has its effect on that map:

* **`tagAt_insert`**, **`tagAt_remove`** — one range appears or disappears;
* **`tagAt_split`** — cutting an extent in two is invisible, and so is joining
  two neighbours with one tag (`tagAt_join`);
* **`tagAt_retag`** — one range changes its tag.

`firstFit` is the search for the lowest gap of a given size: what it finds is a
gap (`firstFit_gap`), the lowest one (`firstFit_le`), and if it finds nothing
there is none (`firstFit_eq_none`).
-/
import Mathlib

namespace Extents

variable {α : Type}

structure Extent (α : Type) where
  start : ℕ
  size : ℕ
  tag : α
deriving DecidableEq, Repr

namespace Extent

/-- The first address after the extent. -/
def stop (e : Extent α) : ℕ := e.start + e.size

/-- The address lies in the extent. -/
def Has (e : Extent α) (p : ℕ) : Prop := e.start ≤ p ∧ p < e.stop

instance (e : Extent α) (p : ℕ) : Decidable (e.Has p) := inferInstanceAs (Decidable (_ ∧ _))

/-- The part before an address. -/
def before (e : Extent α) (x : ℕ) : Extent α := ⟨e.start, x - e.start, e.tag⟩

/-- The part from an address on. -/
def after (e : Extent α) (x : ℕ) : Extent α := ⟨x, e.stop - x, e.tag⟩

/-- An extent together with the one that follows it. -/
def join (e e' : Extent α) : Extent α := ⟨e.start, e.size + e'.size, e.tag⟩

def retag (e : Extent α) (t : α) : Extent α := { e with tag := t }

end Extent

open Extent

/-- The extents are non-empty, disjoint and in ascending order. -/
structure Sorted (l : List (Extent α)) : Prop where
  pos : ∀ e ∈ l, 0 < e.size
  ordered : l.Pairwise fun e e' => e.stop ≤ e'.start

/-- The tag of the extent an address lies in. -/
def tagAt (l : List (Extent α)) (p : ℕ) : Option α := (l.find? fun e => e.Has p).map Extent.tag

variable {l l' pre post : List (Extent α)} {e e' : Extent α} {p x : ℕ} {t : α}

theorem tagAt_cons : tagAt (e :: l) p = if e.Has p then some e.tag else tagAt l p := by
  unfold tagAt
  by_cases h : e.Has p <;> simp [h]

theorem tagAt_append : tagAt (l ++ l') p = (tagAt l p).or (tagAt l' p) := by
  unfold tagAt
  rw [List.find?_append, Option.map_or]

theorem tagAt_eq_none : tagAt l p = none ↔ ∀ e ∈ l, ¬e.Has p := by
  unfold tagAt
  simp

theorem exists_of_tagAt (h : tagAt l p = some t) : ∃ e ∈ l, e.Has p ∧ e.tag = t := by
  unfold tagAt at h
  obtain ⟨e, he, rfl⟩ := Option.map_eq_some_iff.mp h
  exact ⟨e, List.mem_of_find?_eq_some he, by simpa using List.find?_some he, rfl⟩

theorem sorted_append :
    Sorted (l ++ l') ↔ Sorted l ∧ Sorted l' ∧ ∀ e ∈ l, ∀ e' ∈ l', e.stop ≤ e'.start := by
  constructor
  · rintro ⟨hpos, hord⟩
    obtain ⟨h, h', hll⟩ := List.pairwise_append.mp hord
    exact ⟨⟨fun e he => hpos e (List.mem_append_left _ he), h⟩,
      ⟨fun e he => hpos e (List.mem_append_right _ he), h'⟩, hll⟩
  · rintro ⟨⟨hp, ho⟩, ⟨hp', ho'⟩, hll⟩
    refine ⟨fun e he => ?_, List.pairwise_append.mpr ⟨ho, ho', hll⟩⟩
    rcases List.mem_append.mp he with he | he
    · exact hp e he
    · exact hp' e he

theorem sorted_cons : Sorted (e :: l) ↔ 0 < e.size ∧ Sorted l ∧ ∀ e' ∈ l, e.stop ≤ e'.start := by
  constructor
  · rintro ⟨hpos, hord⟩
    obtain ⟨h, hl⟩ := List.pairwise_cons.mp hord
    exact ⟨hpos e (by simp), ⟨fun e' he => hpos e' (List.mem_cons_of_mem _ he), hl⟩, h⟩
  · rintro ⟨hpos, ⟨hp, ho⟩, h⟩
    refine ⟨fun e' he => ?_, List.pairwise_cons.mpr ⟨h, ho⟩⟩
    rcases List.mem_cons.mp he with rfl | he
    · exact hpos
    · exact hp e' he

theorem sorted_insert_iff : Sorted (pre ++ e :: post) ↔
    Sorted (pre ++ post) ∧ 0 < e.size ∧ (∀ w ∈ pre, w.stop ≤ e.start) ∧
      ∀ w ∈ post, e.stop ≤ w.start := by
  rw [sorted_append, sorted_append, sorted_cons]
  constructor
  · rintro ⟨hpre, ⟨hpos, hpost, hafter⟩, h⟩
    exact ⟨⟨hpre, hpost, fun w hw w' hw' => h w hw w' (List.mem_cons_of_mem _ hw')⟩, hpos,
      fun w hw => h w hw e (by simp), hafter⟩
  · rintro ⟨⟨hpre, hpost, h⟩, hpos, hbefore, hafter⟩
    refine ⟨hpre, ⟨hpos, hpost, hafter⟩, fun w hw w' hw' => ?_⟩
    rcases List.mem_cons.mp hw' with rfl | hw'
    · exact hbefore w hw
    · exact h w hw w' hw'

/-- Two extents that share an address are one. -/
theorem Sorted.eq_of_has (h : Sorted l) (he : e ∈ l) (he' : e' ∈ l) (hp : e.Has p)
    (hp' : e'.Has p) : e = e' := by
  by_contra hne
  let R : Extent α → Extent α → Prop := fun e e' => e.stop ≤ e'.start ∨ e'.stop ≤ e.start
  have hsymm : Std.Symm R := ⟨fun _ _ => Or.symm⟩
  have hdisj : l.Pairwise R := h.ordered.imp .inl
  unfold Has at hp hp'
  rcases hdisj.forall he he' hne with h | h <;> omega

theorem Sorted.tagAt_of_mem (h : Sorted l) (he : e ∈ l) (hp : e.Has p) :
    tagAt l p = some e.tag := by
  rcases hl : tagAt l p with _ | t
  · exact absurd hp (tagAt_eq_none.mp hl e he)
  · obtain ⟨e', he', hp', rfl⟩ := exists_of_tagAt hl
    rw [h.eq_of_has he he' hp hp']

/-! ### Edits -/

theorem tagAt_insert (h : Sorted (pre ++ e :: post)) :
    tagAt (pre ++ e :: post) p = if e.Has p then some e.tag else tagAt (pre ++ post) p := by
  by_cases hp : e.Has p
  · rw [if_pos hp, h.tagAt_of_mem (by simp) hp]
  · rw [if_neg hp, tagAt_append, tagAt_append, tagAt_cons, if_neg hp]

theorem tagAt_remove (h : Sorted (pre ++ e :: post)) :
    tagAt (pre ++ post) p = if e.Has p then none else tagAt (pre ++ e :: post) p := by
  rw [tagAt_insert h]
  by_cases hp : e.Has p
  · rw [if_pos hp, tagAt_eq_none]
    obtain ⟨-, -, hpre, hpost⟩ := sorted_insert_iff.mp h
    intro w hw hwp
    unfold Has at hp hwp
    rcases List.mem_append.mp hw with hw | hw
    · have := hpre w hw
      omega
    · have := hpost w hw
      omega
  · rw [if_neg hp, if_neg hp]

theorem tagAt_retag (h : Sorted (pre ++ e :: post)) :
    tagAt (pre ++ e.retag t :: post) p
      = if e.Has p then some t else tagAt (pre ++ e :: post) p := by
  have h' : Sorted (pre ++ e.retag t :: post) := by
    rw [sorted_insert_iff] at h ⊢
    exact h
  rw [tagAt_insert h', tagAt_insert h]
  show (if e.Has p then some t else _) = _
  by_cases hp : e.Has p
  · rw [if_pos hp, if_pos hp]
  · rw [if_neg hp, if_neg hp, if_neg hp]

theorem sorted_split (h : Sorted (pre ++ e :: post)) (hx : e.start < x) (hx' : x < e.stop) :
    Sorted (pre ++ e.before x :: e.after x :: post) := by
  obtain ⟨hl, hpos, hpre, hpost⟩ := sorted_insert_iff.mp h
  have hb : (e.before x).stop = x := by simp only [before, stop]; omega
  have ha : (e.after x).stop = e.stop := by simp only [after, stop] at *; omega
  have h1 : Sorted (pre ++ e.after x :: post) := by
    refine sorted_insert_iff.mpr ⟨hl, by simp only [after]; omega, fun w hw => ?_, fun w hw => ?_⟩
    · exact (hpre w hw).trans hx.le
    · rw [ha]
      exact hpost w hw
  refine sorted_insert_iff.mpr ⟨h1, by simp only [before]; omega, hpre, fun w hw => ?_⟩
  rw [hb]
  rcases List.mem_cons.mp hw with rfl | hw
  · exact le_rfl
  · exact hx'.le.trans (hpost w hw)

theorem tagAt_split (h : Sorted (pre ++ e :: post)) (hx : e.start < x) (hx' : x < e.stop) :
    tagAt (pre ++ e.before x :: e.after x :: post) = tagAt (pre ++ e :: post) := by
  funext p
  have h1 := sorted_split h hx hx'
  rw [tagAt_append, tagAt_append, tagAt_cons, tagAt_cons, tagAt_cons]
  have hiff : e.Has p ↔ (e.before x).Has p ∨ (e.after x).Has p := by
    simp only [Has, before, after, stop] at *
    omega
  by_cases hb : (e.before x).Has p
  · rw [if_pos hb, if_pos (hiff.mpr (.inl hb))]
    rfl
  · by_cases ha : (e.after x).Has p
    · rw [if_neg hb, if_pos ha, if_pos (hiff.mpr (.inr ha))]
      rfl
    · rw [if_neg hb, if_neg ha, if_neg (by rw [hiff, not_or]; exact ⟨hb, ha⟩)]

/-- Joining two neighbours undoes a split. -/
theorem split_join (hadj : e.stop = e'.start) (htag : e.tag = e'.tag) :
    (e.join e').before e.stop = e ∧ (e.join e').after e.stop = e' := by
  obtain ⟨s, n, t⟩ := e
  obtain ⟨s', n', t'⟩ := e'
  simp only [join, before, after, stop] at *
  subst hadj htag
  simp
  omega

theorem sorted_join (h : Sorted (pre ++ e :: e' :: post)) (hadj : e.stop = e'.start) :
    Sorted (pre ++ e.join e' :: post) := by
  obtain ⟨hl, hpos, hpre, hpost⟩ := sorted_insert_iff.mp h
  obtain ⟨hl', hpos', hpre', hpost'⟩ := sorted_insert_iff.mp hl
  refine sorted_insert_iff.mpr ⟨hl', by simp only [join]; omega, hpre, fun w hw => ?_⟩
  have := hpost' w hw
  simp only [join, stop] at *
  omega

theorem tagAt_join (h : Sorted (pre ++ e :: e' :: post)) (hadj : e.stop = e'.start)
    (htag : e.tag = e'.tag) :
    tagAt (pre ++ e.join e' :: post) = tagAt (pre ++ e :: e' :: post) := by
  obtain ⟨hb, ha⟩ := split_join hadj htag
  have hpos := h.pos e (by simp)
  have hpos' := h.pos e' (by simp)
  have hs := sorted_join h hadj
  rw [← tagAt_split hs (x := e.stop), hb, ha]
  · simp only [join, stop]; omega
  · simp only [join, stop] at *; omega

/-- No extent reaches across the address. -/
def Cut (l : List (Extent α)) (x : ℕ) : Prop := ∀ e ∈ l, e.Has x → e.start = x

instance (l : List (Extent α)) (x : ℕ) : Decidable (Cut l x) :=
  inferInstanceAs (Decidable (∀ e ∈ l, e.Has x → e.start = x))

theorem Sorted.cut_start (h : Sorted l) (he : e ∈ l) : Cut l e.start := by
  intro e' he' hp
  have hself : e.Has e.start := ⟨le_rfl, Nat.lt_add_of_pos_right (h.pos e he)⟩
  rw [h.eq_of_has he' he hp hself]

theorem Sorted.cut_stop (h : Sorted l) (he : e ∈ l) : Cut l e.stop := by
  intro e' he' hp
  by_contra hne
  have hpos := h.pos e he
  have hlast : e.Has (e.stop - 1) := by unfold Has stop; omega
  have hlast' : e'.Has (e.stop - 1) := by unfold Has stop at *; omega
  rw [h.eq_of_has he' he hlast' hlast] at hp
  exact lt_irrefl _ hp.2

/-- Cutting an extent keeps the cuts there are. -/
theorem Cut.split (h : Cut (pre ++ e :: post) p) (hx : e.start < x) (hx' : x < e.stop) :
    Cut (pre ++ e.before x :: e.after x :: post) p := by
  intro w hw hp
  simp only [List.mem_append, List.mem_cons] at hw
  rcases hw with hw | rfl | rfl | hw
  · exact h w (by simp [hw]) hp
  · refine h e (by simp) ⟨hp.1, hp.2.trans ?_⟩
    unfold before stop at *
    dsimp only
    omega
  · have := h e (by simp)
    simp only [Has, after, stop] at *
    omega
  · exact h w (by simp [hw]) hp

/-- And makes no cut elsewhere. -/
theorem Cut.of_split (h : Cut (pre ++ e.before x :: e.after x :: post) p) (hne : p ≠ x) :
    Cut (pre ++ e :: post) p := by
  intro w hw hp
  simp only [List.mem_append, List.mem_cons] at hw
  rcases hw with hw | rfl | hw
  · exact h w (by simp [hw]) hp
  · have hb := h (w.before x) (by simp)
    have ha := h (w.after x) (by simp)
    simp only [Has, before, after, stop] at *
    omega
  · exact h w (by simp [hw]) hp

/-! ### The lowest gap -/

/-- No address of the range is in an extent. -/
def Gap (l : List (Extent α)) (x size : ℕ) : Prop := ∀ p, x ≤ p → p < x + size → tagAt l p = none

/-- The lowest gap of the given size from `lo` on that ends before `hi`. -/
def firstFit (hi size : ℕ) : ℕ → List (Extent α) → Option ℕ
  | lo, [] => if size ≤ hi - lo then some lo else none
  | lo, e :: l =>
    if lo < e.start ∧ size ≤ e.start - lo then some lo else firstFit hi size e.stop l

theorem Gap.le_start {size : ℕ} (hg : Gap l x size) (h : Sorted l) (he : e ∈ l)
    (hx : x < e.stop) (hs : 0 < size) : x + size ≤ e.start := by
  have hfree : ∀ p, x ≤ p → p < x + size → ¬e.Has p := fun p h1 h2 =>
    tagAt_eq_none.mp (hg p h1 h2) e he
  have hpos := h.pos e he
  have h1 := hfree x le_rfl (by omega)
  have h2 := hfree e.start
  simp only [Has, stop] at *
  omega

theorem gap_cons {size : ℕ} : Gap (e :: l) x size ↔
    Gap l x size ∧ ∀ p, x ≤ p → p < x + size → ¬e.Has p := by
  unfold Gap
  simp only [tagAt_eq_none, List.forall_mem_cons]
  constructor
  · intro h
    exact ⟨fun p h1 h2 => (h p h1 h2).2, fun p h1 h2 => (h p h1 h2).1⟩
  · intro h p h1 h2
    exact ⟨h.2 p h1 h2, h.1 p h1 h2⟩

section FirstFit

variable {hi size lo : ℕ}

/-- What is found is a gap. -/
theorem firstFit_gap (h : Sorted l) (hlo : ∀ e ∈ l, lo ≤ e.stop) (hhi : ∀ e ∈ l, e.stop ≤ hi)
    (hle : lo ≤ hi) (hx : firstFit hi size lo l = some x) :
    lo ≤ x ∧ x + size ≤ hi ∧ Gap l x size := by
  induction l generalizing lo with
  | nil =>
    unfold firstFit at hx
    split at hx
    · cases hx
      exact ⟨le_rfl, by omega, fun _ _ _ => rfl⟩
    · cases hx
  | cons e l ih =>
    obtain ⟨hpos, hl, hafter⟩ := sorted_cons.mp h
    have hstop := hhi e (by simp)
    unfold firstFit at hx
    split at hx
    · rename_i hfit
      cases hx
      refine ⟨le_rfl, ?_, fun p h1 h2 => tagAt_eq_none.mpr fun w hw => ?_⟩
      · unfold stop at hstop
        omega
      · rcases List.mem_cons.mp hw with rfl | hw
        · unfold Has
          omega
        · have := hafter w hw
          unfold Has stop at *
          omega
    · have hlo' : ∀ w ∈ l, e.stop ≤ w.stop := fun w hw =>
        (hafter w hw).trans (by unfold stop; omega)
      obtain ⟨h1, h2, h3⟩ := ih hl hlo' (fun w hw => hhi w (List.mem_cons_of_mem _ hw)) hstop hx
      refine ⟨(hlo e (by simp)).trans h1, h2, gap_cons.mpr ⟨h3, fun p hp _ => ?_⟩⟩
      unfold Has
      omega

/-- What is found is where the search began or the end of an extent. -/
theorem firstFit_cases (hx : firstFit hi size lo l = some x) : x = lo ∨ ∃ e ∈ l, x = e.stop := by
  induction l generalizing lo with
  | nil =>
    unfold firstFit at hx
    split at hx
    · cases hx
      exact .inl rfl
    · cases hx
  | cons e l ih =>
    unfold firstFit at hx
    split at hx
    · cases hx
      exact .inl rfl
    · rcases ih hx with rfl | ⟨w, hw, rfl⟩
      · exact .inr ⟨e, by simp, rfl⟩
      · exact .inr ⟨w, List.mem_cons_of_mem _ hw, rfl⟩

/-- A gap that is not taken lies after what has been passed. -/
theorem Gap.stop_le {y : ℕ} (hg : Gap (e :: l) y size) (h : Sorted (e :: l)) (hs : 0 < size)
    (hy : lo ≤ y) (hno : ¬(lo < e.start ∧ size ≤ e.start - lo)) : e.stop ≤ y := by
  by_contra hlt
  have := hg.le_start h (by simp : e ∈ e :: l) (by omega) hs
  omega

/-- What is found is the lowest gap. -/
theorem firstFit_le (h : Sorted l) (hs : 0 < size) (hx : firstFit hi size lo l = some x) {y : ℕ}
    (hy : lo ≤ y) (hg : Gap l y size) : x ≤ y := by
  induction l generalizing lo with
  | nil =>
    unfold firstFit at hx
    split at hx
    · cases hx
      exact hy
    · cases hx
  | cons e l ih =>
    unfold firstFit at hx
    split at hx
    · cases hx
      exact hy
    · rename_i hno
      exact ih (sorted_cons.mp h).2.1 hx (hg.stop_le h hs hy hno) (gap_cons.mp hg).1

/-- If nothing is found there is no gap. -/
theorem firstFit_eq_none (h : Sorted l) (hs : 0 < size) (hx : firstFit hi size lo l = none) {y : ℕ}
    (hy : lo ≤ y) (hyhi : y + size ≤ hi) : ¬Gap l y size := by
  intro hg
  induction l generalizing lo with
  | nil =>
    unfold firstFit at hx
    split at hx
    · cases hx
    · omega
  | cons e l ih =>
    unfold firstFit at hx
    split at hx
    · cases hx
    · rename_i hno
      exact ih (sorted_cons.mp h).2.1 hx (hg.stop_le h hs hy hno) (gap_cons.mp hg).1

end FirstFit

end Extents
