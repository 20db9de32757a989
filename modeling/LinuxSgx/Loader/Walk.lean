/-
Walking a layout table (`loader.cpp`, `trts_add_trim.cpp`, `trts_ecall.cpp`).

Six functions walk the table with the same loop: an entry is acted upon at its address
plus `delta`, and a group runs the loop again over the entries before it, once for each
repetition, with the repetition's step as the new `delta`.  The loop is `walk`; each
function of the source is an instance of it.

A pointer into the table is an index, and reading through it is the parameter `fetch`:
the loader reads the metadata in memory, the trusted runtime its own copy.

What the loader and the runtime ask of the driver, of the kernel and of the processor is
recorded in `calls`; the answers, `0` for success, come from the environment, which may
base them on everything asked so far.

* **`walk_listed`** — over a table that the validator expands, a walk is a plain
  loop over the expanded entries.
-/
import LinuxSgx.Loader.Metadata

namespace Loader

open Prog List

/-! ### The loop -/

section Walk

variable {σ : Type}

/-- The loop of a group over its repetitions. -/
def repeatGroup (sub : UInt64 → Prog σ Int) (loadStep : UInt64) : ℕ → UInt64 → Prog σ Int
  | 0, _ => pure 0
  | n + 1, step => andThen (sub (step + loadStep)) (repeatGroup sub loadStep n (step + loadStep))

/-- What is done at one element of the table. -/
def visit (act : LayoutEntry → Prog σ Int) (sub : LayoutGroup → Prog σ Int) :
    Layout → Prog σ Int
  | .entry e => act e
  | .group g => sub g

/-- The loop over `n` elements from index `i` on. -/
def walkLoop (fetch : ℕ → Prog σ Layout) (act : LayoutEntry → Prog σ Int)
    (sub : ℕ → LayoutGroup → Prog σ Int) : ℕ → ℕ → Prog σ Int
  | _, 0 => pure 0
  | i, n + 1 => do
    let layout ← fetch i
    andThen (visit act (sub i) layout) (walkLoop fetch act sub (i + 1) n)

/-- The recursive walk over `n` elements from index `lo` on.  A group refers to elements
before it, so that the nesting is bounded by the length of the table; a group that refers
to elements before the table has no outcome. -/
def walk (fetch : ℕ → Prog σ Layout) (act : UInt64 → LayoutEntry → Prog σ Int) :
    ℕ → ℕ → ℕ → UInt64 → Prog σ Int
  | 0, _, _, _ => failure
  | depth + 1, lo, n, delta =>
    walkLoop fetch (act delta)
      (fun i g => repeatGroup
        (fun step =>
          if g.entryCount.toNat ≤ i then
            walk fetch act depth (i - g.entryCount.toNat) g.entryCount.toNat step
          else failure)
        g.loadStep g.loadTimes.toNat 0) lo n

/-- The walk over a whole table of `n` elements. -/
def walkTable (fetch : ℕ → Prog σ Layout) (act : UInt64 → LayoutEntry → Prog σ Int) (n : ℕ) :
    Prog σ Int :=
  walk fetch act (n + 1) 0 n 0

/-- Reading a table that nothing changes. -/
def listed (table : List Layout) (i : ℕ) : Prog σ Layout :=
  match table[i]? with
  | some layout => pure layout
  | none => failure

theorem listed_append (pre : List Layout) (x : Layout) (rest : List Layout) :
    (listed (pre ++ x :: rest) pre.length : Prog σ Layout) = pure x := by
  simp [listed]

end Walk

/-! ### A walk over a validated table -/

section Expansion

variable {σ : Type} {m : Metadata} {act : UInt64 → LayoutEntry → Prog σ Int}

/-- The loop over a range without groups. -/
theorem walkLoop_entries (hact : ∀ delta e, act delta e = act 0 (e.shift delta))
    (sub : ℕ → LayoutGroup → Prog σ Int) {step : UInt64} (range : List Layout) :
    ∀ (pre rest : List Layout) {l : List LayoutEntry}, placeEntries step range = some l →
      walkLoop (listed (pre ++ range ++ rest)) (act step) sub pre.length range.length
        = tryAll (act 0) l := by
  induction range with
  | nil =>
    intro pre rest l hl
    cases hl
    rfl
  | cons x range ih =>
    intro pre rest l hl
    cases x with
    | group g => cases hl
    | entry e =>
      obtain ⟨l', hl', rfl⟩ := Option.map_eq_some_iff.mp hl
      have htail := ih (pre ++ [.entry e]) rest hl'
      rw [length_append, append_assoc, append_assoc] at htail
      rw [length_cons, walkLoop, append_assoc, cons_append, listed_append,
        pure_bind, tryAll, ← hact step e, visit]
      exact congrArg _ htail

/-- The repetitions of one group, read back from the validator's vector. -/
theorem repeatGroup_place {g : LayoutGroup} {range : List Layout} {sub : UInt64 → Prog σ Int}
    (hsub : ∀ {step l}, placeEntries step range = some l → sub step = tryAll (act 0) l) (n : ℕ) :
    ∀ (step : UInt64) {l : List LayoutEntry}, placeGroup m g range n step = some l →
      repeatGroup sub g.loadStep n step = tryAll (act 0) l := by
  induction n with
  | zero =>
    intro step l hl
    cases hl
    rfl
  | succ n ih =>
    intro step l hl
    rw [placeGroup] at hl
    split at hl
    · cases hl
    · simp only [Option.bind_eq_bind, Option.bind_eq_some_iff] at hl
      obtain ⟨now, hnow, later, hlater, hl⟩ := hl
      cases hl
      rw [repeatGroup, hsub hnow, ih _ hlater, tryAll_append]

/-- Whatever the pointer has passed, the walk and the validator go on alike. -/
theorem walk_place (hact : ∀ delta e, act delta e = act 0 (e.shift delta)) (depth : ℕ)
    (rest : List Layout) :
    ∀ (pre : List Layout) {l : List LayoutEntry}, placeTable m pre rest = some l →
      walk (listed (pre ++ rest)) act (depth + 2) pre.length rest.length 0
        = tryAll (act 0) l := by
  induction rest with
  | nil =>
    intro pre l hl
    cases hl
    rfl
  | cons x rest ih =>
    intro pre l hl
    have htail : ∀ {l'}, placeTable m (pre ++ [x]) rest = some l' →
        walk (listed (pre ++ x :: rest)) act (depth + 2) (pre.length + 1) rest.length 0
          = tryAll (act 0) l' := by
      intro l' hl'
      have h := ih (pre ++ [x]) hl'
      rwa [append_assoc, length_append] at h
    rw [walk] at htail ⊢
    rw [length_cons, walkLoop, listed_append, pure_bind]
    cases x with
    | entry e =>
      rw [placeTable] at hl
      split at hl
      · cases hl
      · obtain ⟨l', hl', rfl⟩ := Option.map_eq_some_iff.mp hl
        rw [htail hl']
        rfl
    | group g =>
      rw [placeTable] at hl
      split at hl
      · cases hl
      rename_i hcount
      simp only [Option.bind_eq_bind, Option.bind_eq_some_iff] at hl
      obtain ⟨now, hnow, later, hlater, hl⟩ := hl
      cases hl
      rw [htail hlater, tryAll_append]
      refine congrArg (andThen · _) (repeatGroup_place ?_ _ _ hnow)
      intro step l hl
      -- the group's range is the end of the part of the table that was passed
      have hpre : pre = pre.take (pre.length - g.entryCount.toNat)
          ++ lastEntries g.entryCount.toNat pre := (take_append_drop _ _).symm
      have hlen : (pre.take (pre.length - g.entryCount.toNat)).length
          = pre.length - g.entryCount.toNat := by
        rw [length_take]
        omega
      have hlast : (lastEntries g.entryCount.toNat pre).length = g.entryCount.toNat := by
        rw [lastEntries, length_drop]
        omega
      rw [if_pos (by omega), walk]
      have h := fun sub => walkLoop_entries hact sub (lastEntries g.entryCount.toNat pre)
        (pre.take (pre.length - g.entryCount.toNat)) (.group g :: rest) hl
      simp only [← hpre, hlen, hlast] at h
      exact h _

/-- **A walk over a validated table** is a loop over the entries that the validator
collected, in the same order. -/
theorem walk_listed (hact : ∀ delta e, act delta e = act 0 (e.shift delta))
    {l : List LayoutEntry} (hl : placeTable m [] m.layouts = some l) :
    walkTable (listed m.layouts) act m.layouts.length = tryAll (act 0) l := by
  rw [walkTable]
  cases hn : m.layouts.length with
  | zero =>
    rw [eq_nil_of_length_eq_zero hn] at hl ⊢
    cases hl
    rfl
  | succ n =>
    have h := walk_place hact n m.layouts [] hl
    rwa [hn] at h

end Expansion

/-! ### Walks over different readings of one table -/

section Frame

variable {σ : Type} {R : σ → σ → Prop} {fetch : ℕ → Prog σ Layout}
variable {act : UInt64 → LayoutEntry → Prog σ Int}

theorem keeps_visit {act : LayoutEntry → Prog σ Int} {sub : LayoutGroup → Prog σ Int}
    (hact : ∀ e, Keeps R (act e)) (hsub : ∀ g, Keeps R (sub g)) (layout : Layout) :
    Keeps R (visit act sub layout) := by
  cases layout with
  | entry e => exact hact e
  | group g => exact hsub g

variable [Std.Refl R] [IsTrans σ R]

theorem keeps_repeatGroup {sub : UInt64 → Prog σ Int} (hsub : ∀ step, Keeps R (sub step))
    {loadStep : UInt64} (n : ℕ) : ∀ step, Keeps R (repeatGroup sub loadStep n step) := by
  induction n with
  | zero => exact fun _ => keeps_pure 0
  | succ n ih => exact fun step => keeps_andThen (hsub _) (ih _)

theorem keeps_walkLoop {act : LayoutEntry → Prog σ Int} {sub : ℕ → LayoutGroup → Prog σ Int}
    (hfetch : ∀ i, Keeps R (fetch i)) (hact : ∀ e, Keeps R (act e))
    (hsub : ∀ i g, Keeps R (sub i g)) (n : ℕ) : ∀ i, Keeps R (walkLoop fetch act sub i n) := by
  induction n with
  | zero => exact fun _ => keeps_pure 0
  | succ n ih =>
    intro i
    exact keeps_bind (hfetch i) fun layout =>
      keeps_andThen (keeps_visit hact (hsub i) layout) (ih (i + 1))

theorem keeps_walk (hfetch : ∀ i, Keeps R (fetch i)) (hact : ∀ delta e, Keeps R (act delta e))
    (depth : ℕ) : ∀ lo n delta, Keeps R (walk fetch act depth lo n delta) := by
  induction depth with
  | zero => exact fun _ _ _ => keeps_failure
  | succ depth ih =>
    intro lo n delta
    exact keeps_walkLoop hfetch (hact delta)
      (fun i g => keeps_repeatGroup (fun step => keeps_ite (ih _ _ _) keeps_failure) _ _) n lo

end Frame

/-! ### Walks that reach the end of the table -/

section Fetched

variable {σ : Type} {fetch : ℕ → Prog σ Layout}

theorem succeeds_repeatGroup {sub : UInt64 → Prog σ Int} (hsub : ∀ step, Succeeds (sub step))
    {loadStep : UInt64} (n : ℕ) : ∀ step, Succeeds (repeatGroup sub loadStep n step) := by
  induction n with
  | zero => exact fun _ => succeeds_pure
  | succ n ih => exact fun step => (hsub _).andThen (ih _)

variable {act : LayoutEntry → Prog σ Int} {sub : ℕ → LayoutGroup → Prog σ Int}

theorem succeeds_visit (hact : ∀ e, Succeeds (act e)) (hsub : ∀ i g, Succeeds (sub i g)) (i : ℕ)
    (layout : Layout) : Succeeds (visit act (sub i) layout) := by
  cases layout with
  | entry e => exact hact e
  | group g => exact hsub i g

theorem succeeds_walkLoop (hact : ∀ e, Succeeds (act e)) (hsub : ∀ i g, Succeeds (sub i g))
    (n : ℕ) : ∀ i, Succeeds (walkLoop fetch act sub i n) := by
  induction n with
  | zero => exact fun _ => succeeds_pure
  | succ n ih =>
    exact fun i => succeeds_bind fun layout => (succeeds_visit hact hsub i layout).andThen (ih _)

theorem succeeds_group {act : UInt64 → LayoutEntry → Prog σ Int}
    (hact : ∀ delta e, Succeeds (act delta e)) (depth i : ℕ) (g : LayoutGroup) :
    Succeeds (repeatGroup
      (fun step =>
        if g.entryCount.toNat ≤ i then
          walk fetch act depth (i - g.entryCount.toNat) g.entryCount.toNat step
        else failure)
      g.loadStep g.loadTimes.toNat 0) := by
  induction depth generalizing i g with
  | zero => exact succeeds_repeatGroup (fun _ => succeeds_ite succeeds_failure succeeds_failure) _ _
  | succ depth ih =>
    exact succeeds_repeatGroup (fun step =>
      succeeds_ite (succeeds_walkLoop (hact step) ih _ _) succeeds_failure) _ _

/-- If nothing on the way reports an error, every element is read. -/
theorem fetched_of_walkLoop (hact : ∀ e, Succeeds (act e)) (hsub : ∀ i g, Succeeds (sub i g))
    {Q : Int → σ → Prop} (n : ℕ) :
    ∀ (i : ℕ) (s : σ), wp False (walkLoop fetch act sub i n) Q s →
      ∀ j, i ≤ j → j < i + n → ∃ s', wp False (fetch j) (fun _ _ => True) s' := by
  induction n with
  | zero =>
    intro i s _ j h1 h2
    omega
  | succ n ih =>
    intro i s h j h1 h2
    rw [walkLoop, wp_bind] at h
    rcases Nat.eq_or_lt_of_le h1 with rfl | hlt
    · exact ⟨s, wp_mono h fun _ _ _ => trivial⟩
    · obtain ⟨layout, s₁, -, h⟩ := wp_false_iff.mp h
      obtain ⟨_, s₂, -, -, h⟩ := wp_false_iff.mp ((succeeds_visit hact hsub i layout).wp_next h)
      exact ih (i + 1) s₂ h j hlt (by omega)

theorem fetched_of_walkTable {act : UInt64 → LayoutEntry → Prog σ Int}
    (hact : ∀ delta e, Succeeds (act delta e)) {Q : Int → σ → Prop} {n : ℕ} {s : σ}
    (h : wp False (walkTable fetch act n) Q s) {j : ℕ} (hj : j < n) :
    ∃ s', wp False (fetch j) (fun _ _ => True) s' :=
  fetched_of_walkLoop (hact 0) (succeeds_group hact n) n 0 s h j (Nat.zero_le j) (by omega)

end Fetched

section Reading

variable {σ : Type} {I : σ → Prop} {fetch fetch' : ℕ → Prog σ Layout} {size : ℕ}

theorem agree_repeatGroup {sub sub' : UInt64 → Prog σ Int} (h : ∀ step, AgreeOn I (sub step) (sub' step))
    (hkeep : ∀ step, Keeps (Preserves I) (sub step)) {loadStep : UInt64} (n : ℕ) :
    ∀ step, AgreeOn I (repeatGroup sub loadStep n step) (repeatGroup sub' loadStep n step) := by
  induction n with
  | zero => exact fun _ => AgreeOn.refl _
  | succ n ih => exact fun step => (h _).andThen (hkeep _) (ih _)

theorem agree_walkLoop {act : LayoutEntry → Prog σ Int} {sub sub' : ℕ → LayoutGroup → Prog σ Int}
    (hfetch : ∀ i < size, AgreeOn I (fetch i) (fetch' i))
    (hkeep : ∀ i, Keeps (Preserves I) (fetch i)) (hact : ∀ e, Keeps (Preserves I) (act e))
    (hsub : ∀ i < size, ∀ g, AgreeOn I (sub i g) (sub' i g))
    (hsubKeep : ∀ i g, Keeps (Preserves I) (sub i g)) (n : ℕ) :
    ∀ i, i + n ≤ size →
      AgreeOn I (walkLoop fetch act sub i n) (walkLoop fetch' act sub' i n) := by
  induction n with
  | zero => exact fun _ _ => AgreeOn.refl _
  | succ n ih =>
    intro i hi
    refine (hfetch i (by omega)).bind (hkeep i) fun layout => ?_
    refine AgreeOn.andThen ?_ (keeps_visit hact (hsubKeep i) layout) (ih (i + 1) (by omega))
    cases layout with
    | entry e => exact AgreeOn.refl _
    | group g => exact hsub i (by omega) g

/-- A walk does not notice the difference between two ways of reading the elements of the
table, as its groups refer to elements before them only. -/
theorem agree_walk {act : UInt64 → LayoutEntry → Prog σ Int}
    (hfetch : ∀ i < size, AgreeOn I (fetch i) (fetch' i))
    (hkeep : ∀ i, Keeps (Preserves I) (fetch i))
    (hact : ∀ delta e, Keeps (Preserves I) (act delta e)) (depth : ℕ) :
    ∀ lo n delta, lo + n ≤ size →
      AgreeOn I (walk fetch act depth lo n delta) (walk fetch' act depth lo n delta) := by
  induction depth with
  | zero => exact fun _ _ _ _ => AgreeOn.refl _
  | succ depth ih =>
    intro lo n delta hn
    have hsubKeep : ∀ (i : ℕ) (g : LayoutGroup) (step : UInt64), Keeps (Preserves I)
        (if g.entryCount.toNat ≤ i then
          walk fetch act depth (i - g.entryCount.toNat) g.entryCount.toNat step
        else failure) := fun _ _ _ => keeps_ite (keeps_walk hkeep hact depth _ _ _) keeps_failure
    refine agree_walkLoop hfetch hkeep (hact delta) (fun i hi g => ?_)
      (fun i g => keeps_repeatGroup (hsubKeep i g) _ _) n lo hn
    refine agree_repeatGroup (fun step => ?_) (hsubKeep i g) _ _
    by_cases hg : g.entryCount.toNat ≤ i
    · rw [if_pos hg, if_pos hg]
      exact ih _ _ _ (by omega)
    · rw [if_neg hg, if_neg hg]
      exact AgreeOn.refl _

end Reading

end Loader
