/-
Who is woken by a condition variable.

The queue of a condition variable holds the threads in `sgx_thread_cond_wait`.  A signal takes the
first one out and a broadcast all of them; a thread whose wait ends goes on waiting as long as it is in the
queue, and then locks the mutex again, of which it does not look at the result.

* `wakes_step`, `wait_step`, `relock_step` — what a call does to the threads in the wait;
* `Careful` — the mutex of a thread that waits is its own one before, and is not destroyed meanwhile;
* **`cond_delivery`** — in every run the queues are those lists, and a thread leaves the wait as it
  should;
* `signal_lost` — a thread that failed to wait takes the signal of another one.
-/
import LinuxSgx.Sethread.WaitQueues


open Runs Option

namespace Sethread.WaitQueues

variable {T M C R : Type} {s s' : System T M C R} {q : Queue M C R → List T} {t u : T} {m : M}
  {c : C} {a : Action T M C R}

theorem Careful.control_ne {inCond : Bool} (h : Careful s (.round t))
    (hpc : s.pc t = .lock m inCond) (hcond : inCond = true) : (s.mutex m).control ≠ .other := by
  have h2 := h.2
  subst hcond
  simpa only [hpc] using h2

/-! ### The other threads -/

/-- The calls that may move a thread which is within one. -/
def Action.Moves (a : Action T M C R) (u : T) : Prop :=
  a = .round u ∨ a = .condUnlock u ∨ a = .condCheck u ∨ a = .rwAgain u ∨
    ∃ t c, a = .condSignal t c ∨ ∃ malloc, a = .condBroadcast t c malloc

theorem isDone_ne {t : T} (ht : (s.pc t).isDone = true) (hu : (s.pc u).isDone = false) : u ≠ t := by
  rintro rfl
  rw [ht] at hu
  cases hu

/-! ### Signals and broadcasts -/

/-- The threads that a call wakes. -/
def woken (a : Action T M C R) (q : C → List T) : List T :=
  match a with
  | .condSignal _ c => (q c).head?.toList
  | .condBroadcast _ c malloc => if malloc then q c else []
  | _ => []

/-- A signal or a broadcast on `c` by `t`. -/
def Action.Wakes (a : Action T M C R) (t : T) (c : C) : Prop :=
  a = .condSignal t c ∨ ∃ malloc, a = .condBroadcast t c malloc

theorem mem_of_woken {q : C → List T} (ha : a.Wakes t c) (hu : u ∈ woken a q) : u ∈ q c := by
  obtain rfl | ⟨malloc, rfl⟩ := ha
  · exact List.mem_of_mem_head? (mem_toList.mp hu)
  · cases malloc
    · cases hu
    · exact hu

/-! ### One call -/

variable [DecidableEq T]

theorem pc_setPc {pc : Pc M C R} : (s.setPc t pc).pc u = if u = t then pc else s.pc u :=
  Function.update_apply ..

variable [DecidableEq M] [DecidableEq C] [DecidableEq R] [Fintype T]

theorem pc_of_step (hstep : step a s = some s') (hu : (s.pc u).isDone = false) (ha : ¬a.Moves u) :
    s'.pc u = s.pc u := by
  have hne : ∀ t, (s.pc t).isDone = true → u ≠ t := fun _ ht => isDone_ne ht hu
  cases a with
  -- the steps that change the place of a thread which is not done are its own
  | round t =>
    have hut : u ≠ t := fun heq => ha (.inl (heq ▸ rfl))
    simp only [step, System.round] at hstep
    split at hstep
    · obtain ⟨x, -, rfl⟩ := map_eq_some_iff.mp hstep
      exact pc_setPc_of_ne hut
    · obtain ⟨x, -, rfl⟩ := map_eq_some_iff.mp hstep
      exact pc_setPc_of_ne hut
    · cases hstep
  | condUnlock t =>
    have hut : u ≠ t := fun heq => ha (.inr (.inl (heq ▸ rfl)))
    simp only [step] at hstep
    split at hstep
    · cases hstep
      exact pc_setPc_of_ne hut
    · cases hstep
  | rwLock t r mode =>
    simp only [step] at hstep
    split_ifs at hstep with hdone
    obtain ⟨x, -, rfl⟩ := map_eq_some_iff.mp hstep
    exact pc_setPc_of_ne (hne t hdone)
  | rwAgain t =>
    have hut : u ≠ t := fun heq => ha (.inr (.inr (.inr (.inl (heq ▸ rfl)))))
    simp only [step] at hstep
    split at hstep
    · obtain ⟨x, -, rfl⟩ := map_eq_some_iff.mp hstep
      exact pc_setPc_of_ne hut
    · cases hstep
  | _ =>
    simp only [step] at hstep
    grind [Action.Moves, pc_setPc, map_eq_some_iff, System.setMutex, System.setCond,
      System.setRwlock, System.setNext]

theorem wakes_step (h : Inv s q) (ha : a.Wakes t c) (hstep : step a s = some s') :
    s.SpinFree c ∧ (s.pc t).isDone = true ∧
      (∀ u, u ≠ t →
        s'.pc u = if u ∈ woken a (fun c => q (.cond c)) then (s.pc u).wake else s.pc u) ∧
      (a ≠ .condSignal t c → s'.pc t = .done .ok → woken a (fun c => q (.cond c)) = q (.cond c)) := by
  obtain rfl | ⟨malloc, rfl⟩ := ha
  · simp only [step] at hstep
    split_ifs at hstep with hdone
    obtain ⟨f, hsignal, -⟩ := Cond.signal_spec (h.holds (.cond c))
    rw [show Cond.signal s.next (s.cond c) = some (f, (q (.cond c)).head?) from hsignal] at hstep
    cases hstep
    exact ⟨hdone.2, hdone.1, fun u hu => pc_setPc_of_ne hu, fun hne => absurd rfl hne⟩
  · simp only [step] at hstep
    split_ifs at hstep with hdone
    obtain ⟨f, e, ws, hbroadcast, hout⟩ := Cond.broadcast_spec malloc (h.holds (.cond c))
    rw [show Cond.broadcast malloc s.next (s.cond c) = some (f, e, ws) from hbroadcast] at hstep
    cases hstep
    refine ⟨hdone.2, hdone.1, ?_, ?_⟩
    · rcases hout with ⟨rfl, rfl, -⟩ | ⟨rfl, rfl, -⟩
      · exact fun u hu => pc_setPc_of_ne hu
      · exact fun u hu => pc_setPc_of_ne hu
    · intro _ hok
      rw [pc_setPc_self, Pc.done.injEq] at hok
      rcases hout with ⟨rfl, -⟩ | ⟨rfl, -, -, he⟩
      · rfl
      · exact (he hok).symm

/-- Whom a call wakes is in the wait. -/
theorem wakes_waiting (h : Inv s q) (ha : a.Wakes t c) (hstep : step a s = some s')
    (hu : u ∈ woken a fun c => q (.cond c)) :
    ∃ m, s.pc u = .condWait c m false ∧ s'.pc u = .condWait c m true := by
  obtain ⟨hspin, ht, hpcs, -⟩ := wakes_step h ha hstep
  have hmem : u ∈ q (.cond c) := mem_of_woken (q := fun c => q (.cond c)) ha hu
  obtain ⟨m, hm⟩ := h.waits_of_mem hspin hmem
  refine ⟨m, hm, ?_⟩
  rw [hpcs u (isDone_ne ht (by rw [hm]; rfl)), if_pos hu, hm]
  rfl

/-! ### The thread that waits -/

theorem not_moves_of_wait {woken : Bool} (hstep : step a s = some s')
    (hpc : s.pc u = .condWait c m woken) (hcheck : a ≠ .condCheck u) (ha : ¬∃ t c, a.Wakes t c) :
    ¬a.Moves u := by
  rintro (rfl | rfl | rfl | rfl | ⟨t, c, hw⟩)
  · simp [step, hpc] at hstep
  · simp [step, hpc] at hstep
  · exact hcheck rfl
  · simp [step, hpc] at hstep
  · exact ha ⟨t, c, hw⟩

/-- Only a signal or a broadcast that takes the thread out of the queue lets it go on. -/
theorem wait_step (h : Inv s q) (hstep : step a s = some s') (hpc : s.pc u = .condWait c m false) :
    s'.pc u = s.pc u ∨ s'.pc u = .condWait c m true ∧ ∃ t, a.Wakes t c := by
  have hmem : u ∈ q (.cond c) := by
    rw [h.mem, hpc]
    rfl
  have hdone : (s.pc u).isDone = false := by rw [hpc]; rfl
  by_cases hcheck : a = .condCheck u
  · subst hcheck
    simp only [step, hpc] at hstep
    split_ifs at hstep with hspin
    rw [show Fifo.contains s.next (s.cond c) u = some (decide (u ∈ q (.cond c))) from
      Fifo.contains_of_holds (h.holds (.cond c)), decide_eq_true hmem] at hstep
    cases hstep
    exact .inl rfl
  by_cases ha : ∃ t c, a.Wakes t c
  · obtain ⟨t, c', ha⟩ := ha
    obtain ⟨-, ht, hpcs, -⟩ := wakes_step h ha hstep
    rw [hpcs u (isDone_ne ht hdone)]
    split_ifs with hwoken
    · have hin := mem_of_woken ha hwoken
      rw [h.mem, hpc] at hin
      cases hin
      exact .inr ⟨by rw [hpc]; rfl, t, ha⟩
    · exact .inl rfl
  · exact .inl (pc_of_step hstep hdone (not_moves_of_wait hstep hpc hcheck ha))

/-- After that it locks its mutex. -/
theorem woken_step (h : Inv s q) (hstep : step a s = some s') (hpc : s.pc u = .condWait c m true) :
    s'.pc u = s.pc u ∨ s'.pc u = .lock m true := by
  have hdone : (s.pc u).isDone = false := by rw [hpc]; rfl
  by_cases hcheck : a = .condCheck u
  · subst hcheck
    simp only [step, hpc] at hstep
    split_ifs at hstep with hspin
    obtain ⟨b, -, rfl⟩ := map_eq_some_iff.mp hstep
    cases b
    · exact .inr pc_setPc_self
    · exact .inl rfl
  by_cases ha : ∃ t c, a.Wakes t c
  · obtain ⟨t, c', ha⟩ := ha
    obtain ⟨-, ht, hpcs, -⟩ := wakes_step h ha hstep
    rw [hpcs u (isDone_ne ht hdone), hpc]
    exact .inl (ite_self _)
  · exact .inl (pc_of_step hstep hdone (not_moves_of_wait hstep hpc hcheck ha))

/-- And then it returns with the mutex. -/
theorem relock_step (h : Inv s q) (hcareful : Careful s a) (hstep : step a s = some s')
    (hpc : s.pc u = .lock m true ∨ s.pc u = .lockAgain m true) :
    s'.pc u = s.pc u ∨ s'.pc u = .lockAgain m true ∨
      s'.pc u = .done .ok ∧ (s'.mutex m).owner = some u := by
  by_cases hround : a = .round u
  · subst hround
    -- a mutex that was destroyed in the meantime could not be taken
    have hvalid : (s.mutex m).control ≠ .other := by
      rcases hpc with hpc | hpc
      · exact hcareful.control_ne hpc rfl
      · intro hother
        have hmem := (h.mem u (.mutex m)).mpr (by rw [hpc]; rfl)
        rw [h.valid m hother] at hmem
        cases hmem
    have hrun : s.round u m true = some s' := by
      rcases hpc with hpc | hpc <;> simpa only [step, hpc] using hstep
    obtain ⟨next', v, e, q', hlock, hout⟩ := Mutex.lock_spec (h.holds (.mutex m)) u
    rw [System.round, show (s.mutex m).lock s.next u = some (next', v, e) from hlock] at hrun
    cases hrun
    right
    cases hout with
    | queued | tail => exact .inl pc_setPc_self
    | entered hent =>
      refine .inr ⟨pc_setPc_self, ?_⟩
      show (Function.update s.mutex m v m).owner = some u
      rw [Function.update_self]
      cases hent with
      | invalid hother => exact absurd hother hvalid
      | again _ ho => exact ho
      | free => rfl
      | head => rfl
  · -- the steps of other threads leave it where it is
    left
    have hdone : (s.pc u).isDone = false := by rcases hpc with hpc | hpc <;> rw [hpc] <;> rfl
    by_cases ha : ∃ t c, a.Wakes t c
    · obtain ⟨t, c', ha⟩ := ha
      obtain ⟨-, ht, hpcs, -⟩ := wakes_step h ha hstep
      rw [hpcs u (isDone_ne ht hdone)]
      rcases hpc with hpc | hpc <;> rw [hpc] <;> exact ite_self _
    · refine pc_of_step hstep hdone ?_
      rintro (rfl | rfl | rfl | rfl | ⟨t, c, hw⟩)
      · exact hround rfl
      · rcases hpc with hpc | hpc <;> simp [step, hpc] at hstep
      · rcases hpc with hpc | hpc <;> simp [step, hpc] at hstep
      · rcases hpc with hpc | hpc <;> simp [step, hpc] at hstep
      · exact ha ⟨t, c, hw⟩

/-! ### Runs -/

/-- The queues of the condition variables after the calls `l`. -/
def condQueues (l : List (Action T M C R)) : C → List T :=
  l.foldl (fun q a => queued a q) fun _ => []

theorem exists_inv_condQueues {control : M → Control} {next : Links T} {l : List (Action T M C R)}
    (hrun : run (only Careful step) l (init control next) = some s) :
    ∃ q, Inv s q ∧ (fun c => q (.cond c)) = condQueues l := by
  induction l using List.reverseRecOn generalizing s with
  | nil =>
    cases hrun
    exact ⟨_, inv_init control next, rfl⟩
  | append_singleton l a ih =>
    obtain ⟨s₀, hl, hstep⟩ := run_concat.mp hrun
    obtain ⟨hcareful, hstep⟩ := only_eq_some.mp hstep
    obtain ⟨q, h, hq⟩ := ih hl
    obtain ⟨q', h', hq'⟩ := h.step hcareful.1 hstep
    refine ⟨q', h', ?_⟩
    rw [condQueues, List.foldl_concat, ← condQueues, ← hq]
    exact funext hq'

/-- **Condition variables deliver.**  If threads wait with mutexes they own, which are not destroyed
before they have them again, then in every run the queue of a condition variable is the list of the
threads that wait, in the order in which they came.  A signal wakes the first of them and nobody
else, and a broadcast that succeeds all of them; each is in the wait at that time.  A thread in the
wait goes on only after such a call has taken it out of the queue, and then returns with its mutex. -/
theorem cond_delivery {control : M → Control} {next : Links T} {l : List (Action T M C R)}
    (hrun : run (only Careful step) l (init control next) = some s) :
    (∀ c, (s.cond c).Holds s.next (condQueues l c)) ∧
    (∀ t c, t ∈ condQueues l c ↔ (s.pc t).blockedOn = some (.cond c)) ∧
    ∀ a s', only Careful step a s = some s' →
      (∀ c, (s'.cond c).Holds s'.next (queued a (condQueues l) c)) ∧
      (∀ t c w rest, a = .condSignal t c → condQueues l c = w :: rest →
        (∃ m, s.pc w = .condWait c m false ∧ s'.pc w = .condWait c m true) ∧
        ∀ u, u ≠ t → u ≠ w → s'.pc u = s.pc u) ∧
      (∀ t c malloc, a = .condBroadcast t c malloc → s'.pc t = .done .ok →
        (∀ w ∈ condQueues l c, ∃ m, s.pc w = .condWait c m false ∧ s'.pc w = .condWait c m true) ∧
        ∀ u, u ≠ t → u ∉ condQueues l c → s'.pc u = s.pc u) ∧
      (∀ t c m, s.pc t = .condWait c m false →
        s'.pc t = s.pc t ∨
          s'.pc t = .condWait c m true ∧ t ∉ queued a (condQueues l) c ∧ ∃ u, a.Wakes u c) ∧
      (∀ t c m, s.pc t = .condWait c m true → s'.pc t = s.pc t ∨ s'.pc t = .lock m true) ∧
      (∀ t m, s.pc t = .lock m true ∨ s.pc t = .lockAgain m true →
        s'.pc t = s.pc t ∨ s'.pc t = .lockAgain m true ∨
          s'.pc t = .done .ok ∧ (s'.mutex m).owner = some t) := by
  obtain ⟨q, h, hq⟩ := exists_inv_condQueues hrun
  rw [← hq]
  refine ⟨fun c => h.holds (.cond c), fun t c => h.mem t (.cond c), ?_⟩
  intro a s' hstep
  obtain ⟨hcareful, hstep⟩ := only_eq_some.mp hstep
  obtain ⟨q', h', hq'⟩ := h.step hcareful.1 hstep
  refine ⟨fun c => hq' c ▸ h'.holds (.cond c), ?_, ?_, ?_, fun t c m => woken_step h hstep,
    fun t m => relock_step h hcareful hstep⟩
  · rintro t c w rest rfl hqueue
    have ha : (Action.condSignal t c : Action T M C R).Wakes t c := .inl rfl
    have hwoken : woken (.condSignal t c : Action T M C R) (fun c => q (.cond c)) = [w] := by
      show (q (.cond c)).head?.toList = [w]
      rw [show q (.cond c) = w :: rest from hqueue]
      rfl
    refine ⟨wakes_waiting h ha hstep (hwoken ▸ List.mem_singleton_self w), ?_⟩
    intro u hut huw
    rw [(wakes_step h ha hstep).2.2.1 u hut, hwoken, if_neg (by simpa using huw)]
  · rintro t c malloc rfl hok
    have ha : (Action.condBroadcast t c malloc : Action T M C R).Wakes t c := .inr ⟨malloc, rfl⟩
    obtain ⟨-, -, hpcs, hall⟩ := wakes_step h ha hstep
    have hwoken := hall nofun hok
    refine ⟨?_, ?_⟩
    · intro w hw
      exact wakes_waiting h ha hstep (hwoken ▸ hw)
    · intro u hut hu
      rw [hpcs u hut, hwoken, if_neg hu]
  · intro t c m hpc
    refine (wait_step h hstep hpc).imp_right ?_
    rintro ⟨hpc', ha⟩
    refine ⟨hpc', ?_, ha⟩
    rw [← hq' c, h'.mem, hpc']
    exact nofun

/-- A thread waits with its mutex. -/
def oneWaiter : List (Action Bool Unit Unit Unit) :=
  [.mutexLock false (), .round false, .condWait false () (), .condUnlock false]

theorem cond_delivery_oneWaiter :
    ∃ s s', run (only Careful step) oneWaiter (init (fun _ => .nonrecursive) fun _ => none) = some s ∧
      only Careful step (.condSignal true ()) s = some s' ∧
      ∃ m, s.pc false = .condWait () m false ∧ s'.pc false = .condWait () m true := by
  have hval : ((run (only Careful step) oneWaiter
      (init (fun _ => .nonrecursive) fun _ => none)).bind
        (only Careful step (.condSignal true ()))).isSome = true := by
    decide +kernel
  obtain ⟨s', hs'⟩ := isSome_iff_exists.mp hval
  obtain ⟨s, hrun, hstep⟩ := bind_eq_some_iff.mp hs'
  have hsignal := ((cond_delivery hrun).2.2 _ _ hstep).2.1 true () false [] rfl rfl
  exact ⟨s, s', hrun, hstep, hsignal.1⟩

/-- **A signal is lost.**  Thread 1 does not own the mutex, so that its `sgx_thread_cond_wait` fails
and leaves it in the queue; the signal takes it out, and thread 0 goes on waiting. -/
theorem signal_lost :
    ∃ s s' : System (Fin 3) Unit Unit Unit,
      run step [.mutexLock 0 (), .round 0, .condWait 1 () (), .condUnlock 1, .condWait 0 () (),
        .condUnlock 0] (init (fun _ => .nonrecursive) fun _ => none) = some s ∧
      step (.condSignal 2 ()) s = some s' ∧ (s.cond ()).first = some 1 ∧ s.pc 1 = .done .eperm ∧
      (s'.cond ()).first = some 0 ∧ s.pc 0 = .condWait () () false ∧
      s'.pc 0 = .condWait () () false :=
  ⟨_, _, rfl, rfl, by decide, by decide, by decide, by decide, by decide⟩

end Sethread.WaitQueues
