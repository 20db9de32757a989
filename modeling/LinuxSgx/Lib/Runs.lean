/-
Runs of a system that takes one step after the other.

A system is a partial function `step : α → σ → Option σ`; an action is possible in a state
if there is a result.  The actions of several threads in any order are one list, so that
a statement about all runs is one about all interleavings.

* `run` — a list of actions;
* `only P step` — the system in which every action has to satisfy `P`;
* **`invariant_of_run`** — what single steps preserve holds at the end of every run;
* `forall_of_run_only` — the actions of a run of `only P step` satisfy `P`;
* `forall_reached_iff` — a condition on steps under which, and only under which, every state
  reached satisfies `G`.
-/
import Mathlib.Data.List.Basic
import Mathlib.Data.List.Induction

namespace Runs

universe u v

variable {σ : Type u} {α : Type v} {step : α → σ → Option σ} {s s' : σ} {l : List α}

/-- All actions of a list, one after the other. -/
def run (step : α → σ → Option σ) : List α → σ → Option σ
  | [], s => some s
  | a :: l, s => (step a s).bind (run step l)

theorem run_cons {a : α} :
    run step (a :: l) s = some s' ↔ ∃ t, step a s = some t ∧ run step l t = some s' :=
  Option.bind_eq_some_iff

theorem run_append {l' : List α} :
    run step (l ++ l') s = some s' ↔ ∃ t, run step l s = some t ∧ run step l' t = some s' := by
  induction l generalizing s with
  | nil => simp [run]
  | cons a l ih =>
    rw [List.cons_append, run_cons]
    constructor
    · rintro ⟨t, ha, h⟩
      obtain ⟨t', h₁, h₂⟩ := ih.mp h
      exact ⟨t', run_cons.mpr ⟨t, ha, h₁⟩, h₂⟩
    · rintro ⟨t', h, h₂⟩
      obtain ⟨t, ha, h₁⟩ := run_cons.mp h
      exact ⟨t, ha, ih.mpr ⟨t', h₁, h₂⟩⟩

/-- The last step of a run. -/
theorem run_concat {a : α} :
    run step (l ++ [a]) s = some s' ↔ ∃ t, run step l s = some t ∧ step a t = some s' := by
  rw [run_append]
  simp [run]

/-- **Invariants.**  What a step preserves holds at the end of every run. -/
theorem invariant_of_run {I : σ → Prop} (hstep : ∀ a s s', I s → step a s = some s' → I s')
    (hrun : run step l s = some s') (h : I s) : I s' := by
  induction l generalizing s with
  | nil =>
    cases hrun
    exact h
  | cons a l ih =>
    obtain ⟨t, ha, hl⟩ := run_cons.mp hrun
    exact ih hl (hstep a s t h ha)

/-- If a step from a state with `G` leads to one with `G` just when it satisfies `P`, then so
does a run: all states it reaches have `G` just when all its steps satisfy `P`. -/
theorem forall_reached_iff {I G : σ → Prop} {P : σ → α → Prop} (hI : I s) (hG : G s)
    (hstep : ∀ a s s', I s → step a s = some s' → I s')
    (hiff : ∀ a s s', I s → G s → step a s = some s' → (G s' ↔ P s a))
    (hrun : run step l s = some s') :
    (∀ pre t, pre <+: l → run step pre s = some t → G t) ↔
      ∀ pre a t, pre ++ [a] <+: l → run step pre s = some t → P t a := by
  constructor
  · rintro h pre a t ⟨rest, rfl⟩ ht
    obtain ⟨u, hu, _⟩ := run_append.mp hrun
    obtain ⟨t', ht', ha⟩ := run_concat.mp hu
    obtain rfl : t = t' := Option.some.inj (ht.symm.trans ht')
    have hbefore : G t := h pre t ((List.prefix_append pre [a]).trans (List.prefix_append _ rest)) ht
    have hafter : G u := h (pre ++ [a]) u (List.prefix_append _ rest) hu
    exact (hiff a t u (invariant_of_run hstep ht hI) hbefore ha).mp hafter
  · intro h pre
    induction pre using List.reverseRecOn with
    | nil =>
      intro t _ ht
      cases ht
      exact hG
    | append_singleton pre a ih =>
      intro u hpre hu
      obtain ⟨t, ht, ha⟩ := run_concat.mp hu
      have hbefore : G t := ih t ((List.prefix_append pre [a]).trans hpre) ht
      exact (hiff a t u (invariant_of_run hstep ht hI) hbefore ha).mpr (h pre a t hpre ht)

/-- The runs in which every action satisfies `P` in the state in which it is taken. -/
def only (P : σ → α → Prop) [∀ s a, Decidable (P s a)] (step : α → σ → Option σ) (a : α) (s : σ) :
    Option σ :=
  if P s a then step a s else none

theorem only_eq_some {P : σ → α → Prop} [∀ s a, Decidable (P s a)] {a : α} :
    only P step a s = some s' ↔ P s a ∧ step a s = some s' := by
  rw [only]
  split
  · simp_all
  · simp_all

/-- In such a run every action satisfies `P`. -/
theorem forall_of_run_only {P : σ → α → Prop} [∀ s a, Decidable (P s a)]
    (hrun : run (only P step) l s = some s') :
    run step l s = some s' ∧ ∀ pre a t, pre ++ [a] <+: l → run step pre s = some t → P t a := by
  induction l using List.reverseRecOn generalizing s' with
  | nil => exact ⟨hrun, fun pre a t hpre => by simp at hpre⟩
  | append_singleton l b ih =>
    obtain ⟨u, hu, hb⟩ := run_concat.mp hrun
    obtain ⟨hP, hb⟩ := only_eq_some.mp hb
    obtain ⟨hl, hbefore⟩ := ih hu
    refine ⟨run_concat.mpr ⟨u, hl, hb⟩, fun pre a t hpre ht => ?_⟩
    rcases List.prefix_concat_iff.mp hpre with heq | hpre
    · obtain ⟨rfl, hab⟩ := List.append_inj' heq rfl
      cases hab
      obtain rfl : t = u := Option.some.inj (ht.symm.trans hl)
      exact hP
    · exact hbefore pre a t hpre ht

end Runs
