/-
Programs that may have no outcome.

`Prog σ α` transforms a state `σ` and returns an `α`, or has no outcome at all:
`failure` stands for undefined behaviour (a dangling pointer is followed) and
for a loop that does not end.  One judgement serves total and partial
correctness:

* `wp u m Q s` — running `m` from `s` ends in an outcome that satisfies `Q`,
  where a run without outcome owes `u`;
* `wp False` is total correctness and `wp True` partial correctness, so a rule
  proved for every `u` is a rule of both logics.

The rules are equivalences (`wp_bind`, `wp_pure`, ...), so that `simp` runs a
program symbolically up to the calls it is told nothing about; a call is then
replaced by its specification with `wp_mono`.  Loops over a list are `forAll`,
with the invariant rule `wp_forAll`.

What a program leaves alone is said by a preorder `R` on states: `Keeps R m`
holds when every outcome is related to its start, and is closed under the
constructs (`keeps_bind`, `keeps_forAll`, ...).  Such frames are proved once,
without any precondition, and added to a specification with `wp_frame`.
-/
import Mathlib

/-- A state transformer that may have no outcome. -/
abbrev Prog (σ α : Type) := StateT σ Option α

namespace Prog

variable {σ α β : Type}

/-- Every outcome of `m` from `s` satisfies `Q`; no outcome at all owes `u`. -/
def wp (u : Prop) (m : Prog σ α) (Q : α → σ → Prop) (s : σ) : Prop :=
  match m s with
  | none => u
  | some (a, s') => Q a s'

variable {u : Prop} {Q R : α → σ → Prop} {s : σ}

theorem wp_of_run {m : Prog σ α} {a : α} {s' : σ} (h : m s = some (a, s')) :
    wp u m Q s ↔ Q a s' := by
  rw [wp, h]

/-- Total correctness, read as the existence of an outcome. -/
theorem wp_false_iff {m : Prog σ α} :
    wp False m Q s ↔ ∃ a s', m s = some (a, s') ∧ Q a s' := by
  unfold wp
  rcases h : m s with _ | ⟨a, s'⟩
  · simp
  · constructor
    · intro hq
      exact ⟨a, s', rfl, hq⟩
    · rintro ⟨b, t, hbt, hq⟩
      cases hbt
      exact hq

/-- Partial correctness, read as a statement about every outcome. -/
theorem wp_true_iff {m : Prog σ α} :
    wp True m Q s ↔ ∀ a s', m s = some (a, s') → Q a s' := by
  unfold wp
  rcases h : m s with _ | ⟨a, s'⟩
  · simp
  · constructor
    · intro hq b t hbt
      cases hbt
      exact hq
    · intro hq
      exact hq a s' rfl

theorem wp_mono {m : Prog σ α} (h : wp u m Q s) (hQR : ∀ a s', Q a s' → R a s') :
    wp u m R s := by
  unfold wp at h ⊢
  rcases hm : m s with _ | ⟨a, s'⟩
  · rw [hm] at h
    exact h
  · rw [hm] at h
    exact hQR a s' h

/-- A total fact holds of every outcome. -/
theorem wp_of_total {m : Prog σ α} (h : wp False m Q s) : wp u m Q s := by
  obtain ⟨a, s', hm, hq⟩ := wp_false_iff.mp h
  exact (wp_of_run hm).mpr hq

/-! ### Rules for the constructs -/

@[simp] theorem wp_pure (a : α) : wp u (pure a : Prog σ α) Q s ↔ Q a s := Iff.rfl

@[simp] theorem wp_bind (m : Prog σ α) (f : α → Prog σ β) (Q : β → σ → Prop) :
    wp u (m >>= f) Q s ↔ wp u m (fun a s' => wp u (f a) Q s') s := by
  unfold wp
  show (match (m s).bind fun p => f p.1 p.2 with
    | none => u
    | some (a, s') => Q a s') ↔ _
  rcases m s with _ | ⟨a, s'⟩ <;> rfl

@[simp] theorem wp_get (Q : σ → σ → Prop) : wp u (get : Prog σ σ) Q s ↔ Q s s := Iff.rfl

@[simp] theorem wp_set (t : σ) (Q : PUnit → σ → Prop) :
    wp u (set t : Prog σ PUnit) Q s ↔ Q ⟨⟩ t := Iff.rfl

@[simp] theorem wp_modify (f : σ → σ) (Q : PUnit → σ → Prop) :
    wp u (modify f : Prog σ PUnit) Q s ↔ Q ⟨⟩ (f s) := Iff.rfl

@[simp] theorem wp_map (f : α → β) (m : Prog σ α) (Q : β → σ → Prop) :
    wp u (f <$> m) Q s ↔ wp u m (fun a s' => Q (f a) s') s := by
  rw [← bind_pure_comp, wp_bind]
  exact Iff.rfl

theorem wp_ite {c : Prop} [Decidable c] {m m' : Prog σ α} :
    wp u (if c then m else m') Q s ↔ (c → wp u m Q s) ∧ (¬c → wp u m' Q s) := by
  by_cases h : c <;> simp [h]

/-! ### Programs on a part of the state -/

section Zoom

variable {τ : Type} {view : σ → τ} {put : τ → σ → σ}

/-- Run a program on the part of the state that `view` shows and `put` replaces. -/
def zoom (view : σ → τ) (put : τ → σ → σ) (m : Prog τ α) : Prog σ α := fun s =>
  (m (view s)).map fun p => (p.1, put p.2 s)

@[simp] theorem wp_zoom (m : Prog τ α) :
    wp u (zoom view put m) Q s ↔ wp u m (fun a t => Q a (put t s)) (view s) := by
  unfold wp zoom
  rcases m (view s) with _ | ⟨a, t⟩ <;> rfl

end Zoom

/-! ### Loops over a list -/

/-- Run `f` on the elements of a list in order, stopping at the first `false`. -/
def forAll (f : α → Prog σ Bool) : List α → Prog σ Bool
  | [] => pure true
  | a :: l => do
    if ← f a then forAll f l else pure false

theorem wp_forAll_cons (f : α → Prog σ Bool) (a : α) (l : List α) (Q : Bool → σ → Prop) :
    wp u (forAll f (a :: l)) Q s ↔
      wp u (f a) (fun b s' => if b then wp u (forAll f l) Q s' else Q false s') s := by
  rw [forAll, wp_bind]
  have h : (fun (b : Bool) s' => wp u (if b = true then forAll f l else pure false) Q s')
      = fun b s' => if b = true then wp u (forAll f l) Q s' else Q false s' := by
    funext b s'
    cases b <;> rfl
  rw [h]

/-- The invariant rule: `I pre` holds once the elements of `pre` are done. -/
theorem wp_forAll {f : α → Prog σ Bool} {Q : Bool → σ → Prop} (I : List α → σ → Prop)
    (l : List α)
    (hstep : ∀ pre a suf, l = pre ++ a :: suf → ∀ s, I pre s →
      wp u (f a) (fun b s' => if b then I (pre ++ [a]) s' else Q false s') s)
    (hend : ∀ s, I l s → Q true s) (h0 : I [] s) : wp u (forAll f l) Q s := by
  suffices h : ∀ suf pre, l = pre ++ suf → ∀ s, I pre s → wp u (forAll f suf) Q s from
    h l [] rfl s h0
  intro suf
  induction suf with
  | nil =>
    intro pre hl s hI
    rw [List.append_nil] at hl
    subst hl
    exact hend s hI
  | cons a suf ih =>
    intro pre hl s hI
    rw [wp_forAll_cons]
    refine wp_mono (hstep pre a suf hl s hI) fun b s' hb => ?_
    cases b with
    | false => simpa using hb
    | true => exact ih (pre ++ [a]) (by rw [hl, List.append_assoc]; rfl) s' (by simpa using hb)

/-! ### Loops that stop at an error

A status of `0` is success; `tryAll` returns the first other one. -/

section TryAll

/-- `m`, and then `m'` unless `m` reports an error. -/
def andThen (m m' : Prog σ Int) : Prog σ Int := do
  let r ← m
  if r ≠ 0 then pure r else m'

def tryAll (f : α → Prog σ Int) : List α → Prog σ Int
  | [] => pure 0
  | a :: l => andThen (f a) (tryAll f l)

@[simp] theorem pure_andThen (m : Prog σ Int) : andThen (pure 0) m = m := by
  rw [andThen, pure_bind, if_neg (not_not.mpr rfl)]

theorem andThen_assoc (m m' m'' : Prog σ Int) :
    andThen (andThen m m') m'' = andThen m (andThen m' m'') := by
  simp only [andThen, bind_assoc]
  congr 1
  funext r
  by_cases hr : r ≠ 0
  · rw [if_pos hr, if_pos hr, pure_bind, if_pos hr]
  · rw [if_neg hr, if_neg hr]

theorem tryAll_append (f : α → Prog σ Int) (l l' : List α) :
    tryAll f (l ++ l') = andThen (tryAll f l) (tryAll f l') := by
  induction l with
  | nil => rw [List.nil_append, tryAll, pure_andThen]
  | cons a l ih => rw [List.cons_append, tryAll, tryAll, ih, andThen_assoc]

/-- Elements that the loop passes over may as well be left out. -/
theorem tryAll_filter (f : α → Prog σ Int) (p : α → Bool) (l : List α) :
    tryAll (fun a => if p a then f a else pure 0) l = tryAll f (l.filter p) := by
  induction l with
  | nil => rfl
  | cons a l ih =>
    rw [tryAll, ih]
    by_cases hp : p a = true
    · rw [if_pos hp, List.filter_cons_of_pos hp, tryAll]
    · rw [if_neg hp, List.filter_cons_of_neg hp, pure_andThen]

theorem wp_andThen {m m' : Prog σ Int} {Q : Int → σ → Prop} :
    wp u (andThen m m') Q s ↔
      wp u m (fun r s' => (r ≠ 0 → Q r s') ∧ (r = 0 → wp u m' Q s')) s := by
  rw [andThen, wp_bind]
  have h : (fun (r : Int) s' => wp u (if r ≠ 0 then pure r else m') Q s')
      = fun r s' => (r ≠ 0 → Q r s') ∧ (r = 0 → wp u m' Q s') := by
    funext r s'
    rw [wp_ite, not_not, wp_pure]
  rw [h]

end TryAll

/-! ### Frames -/

theorem wp_bind_trans {R : σ → σ → Prop} [IsTrans σ R] {m : Prog σ α} {f : α → Prog σ β}
    (h : wp u m (fun _ s' => R s s') s) (hf : ∀ a s', wp u (f a) (fun _ s'' => R s' s'') s') :
    wp u (m >>= f) (fun _ s' => R s s') s := by
  rw [wp_bind]
  refine wp_mono h fun a s' hs => ?_
  exact wp_mono (hf a s') fun _ s'' hs' => IsTrans.trans (r := R) _ _ _ hs hs'

/-- Every outcome of `m` is related to the state it started from. -/
def Keeps (R : σ → σ → Prop) (m : Prog σ α) : Prop :=
  ∀ s, wp True m (fun _ s' => R s s') s

theorem Keeps.of_run {R : σ → σ → Prop} {m : Prog σ α} (hR : Keeps R m) {a : α} {s' : σ}
    (h : m s = some (a, s')) : R s s' :=
  (wp_of_run h).mp (hR s)

theorem Keeps.mono {R S : σ → σ → Prop} {m : Prog σ α} (hR : Keeps R m)
    (hRS : ∀ s s', R s s' → S s s') : Keeps S m :=
  fun s => wp_mono (hR s) fun _ s' h => hRS s s' h

section Keeps

variable {R : σ → σ → Prop} {m m' : Prog σ α}

theorem keeps_modify_iff {f : σ → σ} : Keeps R (modify f : Prog σ PUnit) ↔ ∀ s, R s (f s) := Iff.rfl

theorem keeps_modify {f : σ → σ} (h : ∀ s, R s (f s)) : Keeps R (modify f : Prog σ PUnit) :=
  keeps_modify_iff.mpr h

theorem keeps_map_iff {f : α → β} : Keeps R (f <$> m) ↔ Keeps R m := forall_congr' fun _ => wp_map ..

theorem keeps_failure : Keeps R (failure : Prog σ α) := fun _ => trivial

theorem keeps_ite_iff {c : Prop} [Decidable c] :
    Keeps R (if c then m else m') ↔ (c → Keeps R m) ∧ (¬c → Keeps R m') := by
  by_cases hc : c <;> simp [hc]

theorem keeps_ite {c : Prop} [Decidable c] (h : Keeps R m) (h' : Keeps R m') :
    Keeps R (if c then m else m') :=
  keeps_ite_iff.mpr ⟨fun _ => h, fun _ => h'⟩

theorem keeps_bind [IsTrans σ R] {f : α → Prog σ β} (h : Keeps R m) (hf : ∀ a, Keeps R (f a)) :
    Keeps R (m >>= f) :=
  fun s => wp_bind_trans (h s) fun a s' => hf a s'

theorem keeps_bind_option [IsTrans σ R] {m : Prog σ (Option α)} {f : Option α → Prog σ β}
    (h : Keeps R m) (hnone : Keeps R (f none)) (hsome : ∀ a, Keeps R (f (some a))) :
    Keeps R (m >>= f) :=
  keeps_bind h fun
    | none => hnone
    | some a => hsome a

/-- Two branches that go on in the same way. -/
theorem keeps_ite_then [IsTrans σ R] {γ : Type} {c : Prop} [Decidable c] {m' : Prog σ β}
    {rest : Prog σ γ} (h : Keeps R m) (h' : Keeps R m') (hrest : Keeps R rest) :
    Keeps R (if c then m >>= fun _ => rest else m' >>= fun _ => rest) :=
  keeps_ite (keeps_bind h fun _ => hrest) (keeps_bind h' fun _ => hrest)

variable [Std.Refl R]

theorem keeps_pure (a : α) : Keeps R (pure a : Prog σ α) := fun s => Std.Refl.refl (r := R) s

theorem keeps_get : Keeps R (get : Prog σ σ) := fun s => Std.Refl.refl (r := R) s

theorem keeps_forAll [IsTrans σ R] {f : α → Prog σ Bool} (h : ∀ a, Keeps R (f a)) (l : List α) :
    Keeps R (forAll f l) := by
  induction l with
  | nil => exact keeps_pure true
  | cons a l ih =>
    rw [forAll]
    exact keeps_bind (h a) fun b => keeps_ite ih (keeps_pure false)

theorem keeps_andThen [IsTrans σ R] {m m' : Prog σ Int} (h : Keeps R m) (h' : Keeps R m') :
    Keeps R (andThen m m') :=
  keeps_bind h fun r => keeps_ite (keeps_pure r) h'

end Keeps

/-! ### Programs that always have an outcome -/

/-- `m` has an outcome from every state, related to the state it started from. -/
def Total (R : σ → σ → Prop) (m : Prog σ α) : Prop :=
  ∀ s, wp False m (fun _ s' => R s s') s

section Total

variable {R : σ → σ → Prop} {m m' : Prog σ α}

theorem Total.keeps (h : Total R m) : Keeps R m := fun s => wp_of_total (h s)

/-- A frame of a program that has an outcome from every state. -/
theorem Keeps.total (h : Keeps R m) {Q : σ → α → σ → Prop} (hm : ∀ s, wp False m (Q s) s) :
    Total R m := by
  intro s
  obtain ⟨a, s', hrun, -⟩ := wp_false_iff.mp (hm s)
  exact (wp_of_run hrun).mpr (h.of_run hrun)

theorem total_bind [IsTrans σ R] {f : α → Prog σ β} (h : Total R m) (hf : ∀ a, Total R (f a)) :
    Total R (m >>= f) :=
  fun s => wp_bind_trans (h s) fun a s' => hf a s'

theorem total_ite {c : Prop} [Decidable c] (h : c → Total R m) (h' : ¬c → Total R m') :
    Total R (if c then m else m') := by
  by_cases hc : c
  · rw [if_pos hc]
    exact h hc
  · rw [if_neg hc]
    exact h' hc

variable [Std.Refl R]

theorem total_pure (a : α) : Total R (pure a : Prog σ α) := fun s => Std.Refl.refl (r := R) s

theorem total_get : Total R (get : Prog σ σ) := fun s => Std.Refl.refl (r := R) s

variable [IsTrans σ R]

theorem total_andThen {m m' : Prog σ Int} (h : Total R m) (h' : Total R m') :
    Total R (andThen m m') :=
  total_bind h fun r => total_ite (fun _ => total_pure r) fun _ => h'

theorem total_tryAll {f : α → Prog σ Int} {l : List α} (h : ∀ a ∈ l, Total R (f a)) :
    Total R (tryAll f l) := by
  induction l with
  | nil => exact total_pure 0
  | cons a l ih =>
    exact total_andThen (h a List.mem_cons_self) (ih fun b hb => h b (List.mem_cons_of_mem a hb))

end Total

/-! ### Programs that report no error -/

/-- Every outcome of `m` has the status `0`. -/
def Succeeds (m : Prog σ Int) : Prop := ∀ s, wp True m (fun r _ => r = 0) s

section Succeeds

variable {m m' : Prog σ Int}

theorem succeeds_pure : Succeeds (pure 0 : Prog σ Int) := fun _ => rfl

theorem succeeds_failure : Succeeds (failure : Prog σ Int) := fun _ => trivial

theorem succeeds_bind {n : Prog σ α} {f : α → Prog σ Int} (hf : ∀ a, Succeeds (f a)) :
    Succeeds (n >>= f) := by
  intro s
  rw [wp_bind, wp_true_iff]
  exact fun a s' _ => hf a s'

theorem succeeds_ite {c : Prop} [Decidable c] (h : Succeeds m) (h' : Succeeds m') :
    Succeeds (if c then m else m') := by
  by_cases hc : c
  · rwa [if_pos hc]
  · rwa [if_neg hc]

theorem Succeeds.andThen (h : Succeeds m) (h' : Succeeds m') : Succeeds (andThen m m') := by
  intro s
  rw [wp_andThen]
  exact wp_mono (h s) fun r s' hr => ⟨fun hne => absurd hr hne, fun _ => h' s'⟩

/-- What comes after a program that reports no error is run. -/
theorem Succeeds.wp_next (h : Succeeds m) {Q : Int → σ → Prop}
    (hwp : wp False (Prog.andThen m m') Q s) :
    wp False m (fun r s' => r = 0 ∧ wp False m' Q s') s := by
  rw [wp_andThen] at hwp
  obtain ⟨r, s', hrun, -, hnext⟩ := wp_false_iff.mp hwp
  have hr : r = 0 := (wp_of_run hrun).mp (h s)
  exact (wp_of_run hrun).mpr ⟨hr, hnext hr⟩

end Succeeds

/-! ### Programs that agree where an invariant holds -/

/-- `I` is not lost from `s` to `s'`. -/
def Preserves (I : σ → Prop) (s s' : σ) : Prop := I s → I s'

instance (I : σ → Prop) : Std.Refl (Preserves I) := ⟨fun _ h => h⟩

instance (I : σ → Prop) : IsTrans σ (Preserves I) := ⟨fun _ _ _ h h' hs => h' (h hs)⟩

/-- `m` and `m'` do the same from every state that satisfies `I`. -/
def AgreeOn (I : σ → Prop) (m m' : Prog σ α) : Prop := ∀ s, I s → m s = m' s

section AgreeOn

variable {I : σ → Prop} {m m' : Prog σ α}

theorem AgreeOn.refl (m : Prog σ α) : AgreeOn I m m := fun _ _ => rfl

theorem AgreeOn.bind {f f' : α → Prog σ β} (h : AgreeOn I m m')
    (hI : Keeps (Preserves I) m) (hf : ∀ a, AgreeOn I (f a) (f' a)) :
    AgreeOn I (m >>= f) (m' >>= f') := by
  intro s hs
  show (m s).bind (fun p => f p.1 p.2) = (m' s).bind fun p => f' p.1 p.2
  rw [← h s hs]
  rcases hm : m s with _ | ⟨a, s'⟩
  · rfl
  · exact hf a s' (hI.of_run hm hs)

theorem AgreeOn.andThen {m m' n n' : Prog σ Int} (h : AgreeOn I m m')
    (hI : Keeps (Preserves I) m) (hn : AgreeOn I n n') :
    AgreeOn I (andThen m n) (andThen m' n') := by
  refine AgreeOn.bind h hI fun r => ?_
  by_cases hr : r ≠ 0
  · rw [if_pos hr, if_pos hr]
    exact AgreeOn.refl _
  · rw [if_neg hr, if_neg hr]
    exact hn

end AgreeOn

end Prog
