/-
Threads that share a state, with a lock among them.

A thread is a program counter.  `move` is its next step: it reads and writes the shared
state and may depend on what the environment answers.  The steps of all threads are taken
in any order.

* `Exclusive` — the lock is taken while a thread is inside, and by one thread only;
* **`exclusive_iff`** — a step keeps this just when it treats the lock as its owner should.
-/
import LinuxSgx.Lib.Runs

namespace Interleave

universe u v w x

/-- The program counters of the threads, and what they share. -/
structure Threads (ι : Type u) (σ : Type v) (π : Type w) where
  shared : σ
  pc : ι → π

variable {ι : Type u} {σ : Type v} {π : Type w} {α : Type x}

section Step

variable [DecidableEq ι] {move : α → π → σ → Option (π × σ)} {a : ι × α} {s s' : Threads ι σ π}

/-- Thread `t` is now at `pc`, and the shared state is `sh`. -/
def Threads.put (s : Threads ι σ π) (t : ι) (pc : π) (sh : σ) : Threads ι σ π :=
  ⟨sh, Function.update s.pc t pc⟩

/-- The next step of a thread, with the answer it gets. -/
def step (move : α → π → σ → Option (π × σ)) (a : ι × α) (s : Threads ι σ π) :
    Option (Threads ι σ π) :=
  (move a.2 (s.pc a.1) s.shared).map fun r => s.put a.1 r.1 r.2

theorem step_eq_some :
    step move a s = some s' ↔
      ∃ pc sh, move a.2 (s.pc a.1) s.shared = some (pc, sh) ∧ s.put a.1 pc sh = s' := by
  rw [step, Option.map_eq_some_iff]
  simp only [Prod.exists]

@[simp] theorem Threads.put_shared (t : ι) (pc : π) (sh : σ) : (s.put t pc sh).shared = sh := rfl

@[simp] theorem Threads.put_pc_self (t : ι) (pc : π) (sh : σ) : (s.put t pc sh).pc t = pc :=
  Function.update_self ..

theorem Threads.put_pc_of_ne {t u : ι} (h : u ≠ t) (pc : π) (sh : σ) :
    (s.put t pc sh).pc u = s.pc u :=
  Function.update_of_ne h ..

/-- What a thread knows about the shared state stays true if the steps of the others do not
take it away. -/
theorem forall_put {K : σ → π → Prop} {t : ι} {pc : π} {sh : σ} (h : ∀ u, K s.shared (s.pc u))
    (hown : K sh pc) (hothers : ∀ pc, K s.shared pc → K sh pc) (u : ι) :
    K (s.put t pc sh).shared ((s.put t pc sh).pc u) := by
  by_cases hu : u = t
  · subst hu
    simpa using hown
  · rw [Threads.put_pc_of_ne hu]
    exact hothers _ (h u)

end Step

section Lock

variable (locked : σ → Bool) (inside : π → Bool)

/-- The lock is taken just while a thread is inside, which then is the only one. -/
structure Exclusive (s : Threads ι σ π) : Prop where
  held : locked s.shared = true ↔ ∃ t, inside (s.pc t) = true
  unique : ∀ t u, inside (s.pc t) = true → inside (s.pc u) = true → t = u

/-- A step from `pc` to `pc'` that enters only through a free lock, which it takes, and
releases it when it leaves. -/
def Respects (pc : π) (sh : σ) (pc' : π) (sh' : σ) : Prop :=
  if inside pc = inside pc' then locked sh' = locked sh
  else locked sh' = inside pc' ∧ (inside pc' = true → locked sh = false)

variable {locked inside} {pc pc' : π} {sh sh' : σ}

/-- A step that stays inside, or stays outside. -/
theorem respects_stay (h : inside pc = inside pc') (hlock : locked sh' = locked sh) :
    Respects locked inside pc sh pc' sh' := by
  rwa [Respects, if_pos h]

theorem respects_enter (h : inside pc = false) (h' : inside pc' = true) (hfree : locked sh = false)
    (hlock : locked sh' = true) : Respects locked inside pc sh pc' sh' := by
  rw [Respects, h, h', if_neg Bool.false_ne_true]
  exact ⟨hlock, fun _ => hfree⟩

/-- A step that leaves has to release the lock. -/
theorem respects_leave_iff (h : inside pc = true) (h' : inside pc' = false) :
    Respects locked inside pc sh pc' sh' ↔ locked sh' = false := by
  rw [Respects, h, h', if_neg Bool.false_ne_true.symm]
  exact and_iff_left fun hf => absurd hf Bool.false_ne_true

variable [DecidableEq ι] {s : Threads ι σ π} {t : ι}

/-- Who is inside after a step. -/
theorem inside_put {u : ι} : inside ((s.put t pc sh).pc u) = true ↔
    (u = t ∧ inside pc = true) ∨ (u ≠ t ∧ inside (s.pc u) = true) := by
  by_cases hu : u = t
  · subst hu
    simp
  · simp [Threads.put_pc_of_ne hu, hu]

/-- A step of the only thread that could be inside. -/
theorem Exclusive.inside_put_iff (h : Exclusive locked inside s) (ht : inside (s.pc t) = true) {u : ι} :
    inside ((s.put t pc sh).pc u) = true ↔ u = t ∧ inside pc = true := by
  rw [inside_put]
  refine or_iff_left ?_
  rintro ⟨hu, hin⟩
  exact hu (h.unique u t hin ht)

/-- A step of the thread that is inside: nobody else is, before and after. -/
theorem exclusive_iff_of_inside (h : Exclusive locked inside s) (ht : inside (s.pc t) = true) :
    Exclusive locked inside (s.put t pc sh) ↔ locked sh = inside pc := by
  constructor
  · intro h'
    rw [Bool.eq_iff_iff, ← Threads.put_shared (s := s) t pc sh, h'.held]
    simp only [h.inside_put_iff ht, exists_eq_left]
  · intro hlock
    refine ⟨?_, fun u v hu hv => ?_⟩
    · rw [Threads.put_shared, hlock]
      simp only [h.inside_put_iff ht, exists_eq_left]
    · rw [((h.inside_put_iff ht).mp hu).1, ((h.inside_put_iff ht).mp hv).1]

omit [DecidableEq ι] in
theorem ne_of_outside (ht : inside (s.pc t) = false) {u : ι} (hu : inside (s.pc u) = true) :
    u ≠ t := by
  rintro rfl
  exact absurd (ht.symm.trans hu) Bool.false_ne_true

/-- A step that enters. -/
theorem exclusive_iff_of_enters (h : Exclusive locked inside s) (ht : inside (s.pc t) = false)
    (hpc : inside pc = true) :
    Exclusive locked inside (s.put t pc sh) ↔ locked sh = true ∧ locked s.shared = false := by
  constructor
  · intro h'
    have hself : inside ((s.put t pc sh).pc t) = true := by rwa [Threads.put_pc_self]
    refine ⟨h'.held.mpr ⟨t, hself⟩, Bool.eq_false_iff.mpr fun hheld => ?_⟩
    obtain ⟨u, hu⟩ := h.held.mp hheld
    have hne := ne_of_outside ht hu
    exact hne (h'.unique u t (inside_put.mpr (.inr ⟨hne, hu⟩)) hself)
  · rintro ⟨hlock, hfree⟩
    have hnone : ∀ u, ¬inside (s.pc u) = true := fun u hu =>
      absurd (h.held.mpr ⟨u, hu⟩) (Bool.eq_false_iff.mp hfree)
    have honly : ∀ {u}, inside ((s.put t pc sh).pc u) = true ↔ u = t := by
      intro u
      simp [inside_put, hpc, hnone]
    refine ⟨?_, fun u v hu hv => (honly.mp hu).trans (honly.mp hv).symm⟩
    simp only [honly, Threads.put_shared, hlock, exists_eq]

/-- A step outside. -/
theorem exclusive_iff_of_outside (h : Exclusive locked inside s) (ht : inside (s.pc t) = false)
    (hpc : inside pc = false) :
    Exclusive locked inside (s.put t pc sh) ↔ locked sh = locked s.shared := by
  have hsame : ∀ {u}, inside ((s.put t pc sh).pc u) = true ↔ inside (s.pc u) = true := by
    intro u
    rw [inside_put, hpc]
    exact ⟨fun hu => hu.elim (fun hu => absurd hu.2 Bool.false_ne_true) And.right,
      fun hu => .inr ⟨ne_of_outside ht hu, hu⟩⟩
  constructor
  · intro h'
    rw [Bool.eq_iff_iff, h.held, ← Threads.put_shared (s := s) t pc sh, h'.held]
    simp only [hsame]
  · intro hlock
    refine ⟨?_, fun u v hu hv => h.unique u v (hsame.mp hu) (hsame.mp hv)⟩
    simp only [hsame, Threads.put_shared, hlock, h.held]

/-- **One step and the lock.** -/
theorem exclusive_iff (h : Exclusive locked inside s) :
    Exclusive locked inside (s.put t pc sh) ↔
      Respects locked inside (s.pc t) s.shared pc sh := by
  rw [Respects]
  cases ht : inside (s.pc t) with
  | true =>
    have hheld : locked s.shared = true := h.held.mpr ⟨t, ht⟩
    rw [exclusive_iff_of_inside h ht]
    cases inside pc with
    | true => simp [hheld]
    | false => simp
  | false =>
    cases hpc : inside pc with
    | true => simp [exclusive_iff_of_enters h ht hpc]
    | false => simp [exclusive_iff_of_outside h ht hpc]

end Lock

end Interleave
