/-
The mutex under any scheduler.

Any number of threads lock, try to lock and unlock one mutex.  A thread that has to wait leaves the
enclave, and the host lets it return when it likes: after an event was set for it or without.  The
thread that unlocks sets the event of the first thread of the queue, after it has released the
spinlock, so that everything may happen in between.

* `Threads`, `Action`, `step` — the mutex with its threads;
* `Inv` — the invariant, for the list `q` of the waiting threads;
* `Passes` — what a step does to owner and queue;
* **`mutex_correct`** — one owner, a count that is positive exactly when there is one, waiters
  that come first are served first, and no wake-up is lost.
-/
import LinuxSgx.Sethread.Objects
import LinuxSgx.Lib.Runs

open Runs Function List Option

namespace Sethread.Mutexes

/-! ### The threads of a mutex -/

/-- Where a thread is: out of all calls, in front of a round of `sgx_thread_mutex_lock`, in the wait
outside of the enclave, or in front of the event that `sgx_thread_mutex_unlock` sets. -/
inductive Pc (T : Type) where
  | done (r : Errno)
  | lock
  | wait
  | notify (w : T)

/-- The place of a thread that has released the spinlock of `sgx_thread_mutex_unlock_lazy`. -/
def Pc.unlocked {T : Type} (e : Errno) : Option T → Pc T
  | some w => .notify w
  | none => .done e

/-- `event t` if an event was set for `t` that no wait has taken yet.  `held t` is not in the code:
it counts the locks that `t` got and has not given back. -/
structure Threads (T : Type) where
  mutex : Mutex T
  next : Links T
  pc : T → Pc T
  event : T → Bool
  held : T → ℕ

/-- `wake` returns from a wait, with or without an event; `keep` if an event stays.  `post` is an
event from anywhere else. -/
inductive Action (T : Type) where
  | lock (t : T)
  | round (t : T)
  | trylock (t : T)
  | unlock (t : T)
  | notify (t : T)
  | wake (t : T) (keep : Bool)
  | post (t : T)

variable {T : Type} [DecidableEq T] {s s' : Threads T} {q q' : List T} {t : T}

def init (control : Control) (next : Links T) : Threads T :=
  ⟨{ Mutex.init with control := control }, next, fun _ => .done .ok, fun _ => false, fun _ => 0⟩

namespace Threads

variable (s)

def setPc (t : T) (pc : Pc T) : Threads T := { s with pc := Function.update s.pc t pc }

def setEvent (t : T) (b : Bool) : Threads T := { s with event := Function.update s.event t b }

/-- A call that may have locked the mutex returns. -/
def finish (t : T) (m : Mutex T) (e : Errno) : Threads T :=
  { s with
    mutex := m
    pc := Function.update s.pc t (.done e)
    held := if e = .ok then Function.update s.held t (s.held t + 1) else s.held }

/-- `sgx_thread_mutex_unlock_lazy` returns. -/
def release (t : T) (m : Mutex T) (e : Errno) (w : Option T) : Threads T :=
  { s with
    mutex := m
    pc := Function.update s.pc t (.unlocked e w)
    held := if e = .ok then Function.update s.held t (s.held t - 1) else s.held }

end Threads

def step [Fintype T] (a : Action T) (s : Threads T) : Option (Threads T) :=
  match a with
  | .lock t =>
    match s.pc t with
    | .done _ => some (s.setPc t .lock)
    | _ => none
  | .round t =>
    match s.pc t with
    | .lock =>
      match s.mutex.lock s.next t with
      | some (_, m, some e) => some (s.finish t m e)
      | some (next, m, none) => some ({ s with mutex := m, next := next }.setPc t .wait)
      | none => none
    | _ => none
  | .trylock t =>
    match s.pc t with
    | .done _ => (s.mutex.trylock s.next t).map fun r => s.finish t r.1 r.2
    | _ => none
  | .unlock t =>
    match s.pc t with
    | .done _ =>
      let r := s.mutex.unlockLazy t
      some (s.release t r.1 r.2.1 r.2.2)
    | _ => none
  | .notify t =>
    match s.pc t with
    | .notify w => some ((s.setPc t (.done .ok)).setEvent w true)
    | _ => none
  | .wake t keep =>
    match s.pc t with
    | .wait => some ((s.setPc t .lock).setEvent t (s.event t && keep))
    | _ => none
  | .post t => some (s.setEvent t true)

/-! ### The invariant -/

/-- The thread `h` will look at the mutex again: it runs, an event is set for it, or some thread is
about to set it. -/
def Awake (s : Threads T) (h : T) : Prop :=
  s.pc h = .lock ∨ s.event h = true ∨ ∃ u, s.pc u = .notify h

structure Inv (s : Threads T) (q : List T) : Prop where
  queue : s.mutex.queue.Holds s.next q
  held : ∀ t, s.held t = if s.mutex.owner = some t then s.mutex.refcount else 0
  count : 0 < s.mutex.refcount ↔ s.mutex.owner ≠ none
  mem : ∀ t ∈ q, s.pc t = .lock ∨ s.pc t = .wait
  wait : ∀ t, s.pc t = .wait → t ∈ q
  valid : s.mutex.control = .other → q = []
  recursive : s.mutex.control = .recursive → ∀ t, s.mutex.owner = some t → t ∉ q
  awake : s.mutex.owner = none → ∀ h, q.head? = some h → Awake s h

/-- The mutex is taken by the first thread of the queue, or by any thread if nobody waits; else
nobody gets it, and the queue stays or has one more thread at its end. -/
def Passes (s s' : Threads T) (q q' : List T) : Prop :=
  (∃ t, s.mutex.owner = none ∧ s'.mutex.owner = some t ∧ (q = [] ∧ q' = [] ∨ q = t :: q')) ∨
  ((s'.mutex.owner = s.mutex.owner ∨ s'.mutex.owner = none) ∧ (q' = q ∨ ∃ t, t ∉ q ∧ q' = q ++ [t]))

variable {pc : Pc T}

theorem pc_setPc_self : (s.setPc t pc).pc t = pc := update_self ..

theorem pc_setPc_of_ne {u : T} (hu : u ≠ t) : (s.setPc t pc).pc u = s.pc u :=
  update_of_ne hu ..

theorem Inv.notMem (h : Inv s q) (hlock : s.pc t ≠ .lock) (hwait : s.pc t ≠ .wait) : t ∉ q :=
  fun ht => (h.mem t ht).elim hlock hwait

omit [DecidableEq T] in
/-- A thread that is not about to wake `x` changes its place. -/
theorem Awake.update {x : T} (h : Awake s x) (hx : x ≠ t) (hnot : s.pc t ≠ .notify x)
    (hpc : ∀ u, u ≠ t → s'.pc u = s.pc u) (hevent : s'.event x = s.event x) : Awake s' x := by
  rcases h with h | h | ⟨u, hu⟩
  · exact .inl (by rw [hpc x hx, h])
  · exact .inr (.inl (by rw [hevent, h]))
  · have hut : u ≠ t := fun heq => hnot (heq ▸ hu)
    exact .inr (.inr ⟨u, by rw [hpc u hut, hu]⟩)

/-! ### The steps -/

/-- Only the thread `t` changes its place, in the queue and out of it. -/
theorem Inv.places {r : Threads T} {l : List T} (h : Inv s q) (hpc : r.pc = update s.pc t pc)
    (hq : ∀ u, u ≠ t → (u ∈ l ↔ u ∈ q)) (hmem : t ∈ l → pc = .lock ∨ pc = .wait)
    (hwait : pc = .wait → t ∈ l) :
    (∀ u ∈ l, r.pc u = .lock ∨ r.pc u = .wait) ∧ ∀ u, r.pc u = .wait → u ∈ l := by
  rw [hpc]
  refine ⟨fun u hu => ?_, fun u hu => ?_⟩
  · by_cases hut : u = t
    · rw [hut, update_self]
      exact hmem (hut ▸ hu)
    · rw [update_of_ne hut]
      exact h.mem u ((hq u hut).mp hu)
  · by_cases hut : u = t
    · rw [hut, update_self] at hu
      exact hut ▸ hwait hu
    · rw [update_of_ne hut] at hu
      exact (hq u hut).mpr (h.wait u hu)

/-- A step that leaves the mutex and its queue as they are. -/
theorem Inv.idle (h : Inv s q) (hmutex : s'.mutex = s.mutex) (hnext : s'.next = s.next)
    (hheld : s'.held = s.held) (hpc : s'.pc = update s.pc t pc)
    (hmem : t ∈ q → pc = .lock ∨ pc = .wait) (hwait : pc = .wait → t ∈ q)
    (hawake : s.mutex.owner = none → ∀ x, q.head? = some x → Awake s x → Awake s' x) :
    Inv s' q ∧ Passes s s' q q := by
  obtain ⟨hmem, hwait⟩ := h.places hpc (fun _ _ => Iff.rfl) hmem hwait
  refine ⟨⟨?_, ?_, ?_, hmem, hwait, ?_, ?_, ?_⟩, .inr ⟨.inl (by rw [hmutex]), .inl rfl⟩⟩
  · rw [hmutex, hnext]
    exact h.queue
  · rw [hmutex, hheld]
    exact h.held
  · rw [hmutex]
    exact h.count
  · rw [hmutex]
    exact h.valid
  · rw [hmutex]
    exact h.recursive
  · rw [hmutex]
    exact fun hn x hx => hawake hn x hx (h.awake hn x hx)

/-- A thread outside of the queue changes its place there, and wakes nobody. -/
theorem Inv.outside (h : Inv s q) (hmutex : s'.mutex = s.mutex) (hnext : s'.next = s.next)
    (hheld : s'.held = s.held) (hpc : s'.pc = update s.pc t pc) (hevent : s'.event = s.event)
    (ht : t ∉ q) (hnot : ∀ w, s.pc t ≠ .notify w) (hwait : pc ≠ .wait) :
    Inv s' q ∧ Passes s s' q q := by
  refine h.idle hmutex hnext hheld hpc (fun hmem => absurd hmem ht) (fun heq => absurd heq hwait) ?_
  intro _ x hx hx'
  have hxt : x ≠ t := fun heq => ht (heq ▸ List.mem_of_mem_head? hx)
  exact hx'.update hxt (hnot x) (fun u hu => by rw [hpc, update_of_ne hu]) (by rw [hevent])

/-- A thread that gets the mutex counts one more, and nobody else has it. -/
theorem Inv.held_acquire (h : Inv s q) (ho : s.mutex.owner = none ∨ s.mutex.owner = some t) (u : T) :
    update s.held t (s.held t + 1) u =
      if some t = some u then s.mutex.refcount + 1 else 0 := by
  have hnone : s.mutex.owner = none → s.mutex.refcount = 0 := by
    intro hn
    exact Nat.eq_zero_of_not_pos fun hpos => h.count.mp hpos hn
  by_cases hu : u = t
  · rw [hu, update_self, if_pos rfl, h.held t]
    rcases ho with ho | ho
    · rw [if_neg (by rw [ho]; exact (some_ne_none t).symm), hnone ho]
    · rw [if_pos ho]
  · have htu : some t ≠ some u := fun heq => hu (some.inj heq).symm
    rw [update_of_ne hu, if_neg htu, h.held u]
    rcases ho with ho | ho
    · rw [if_neg (by rw [ho]; exact (some_ne_none u).symm)]
    · rw [if_neg (by rw [ho]; exact htu)]

/-- The mutex is entered: by a thread in front of the lock, in the queue or not. -/
theorem Inv.entered {m : Mutex T} {e : Errno} (h : Inv s q) (hnot : ∀ w, s.pc t ≠ .notify w)
    (hent : Mutex.Entered s.next s.mutex q t m (some e) q') :
    Inv (s.finish t m e) q' ∧ Passes s (s.finish t m e) q q' := by
  have hsame (ht : t ∉ q) {m : Mutex T} {e : Errno} :=
    h.places (r := s.finish t m e) rfl (fun _ _ => Iff.rfl) (absurd · ht) (nomatch ·)
  have hsome : 0 < s.mutex.refcount + 1 ↔ some t ≠ none :=
    ⟨fun _ => some_ne_none t, fun _ => Nat.succ_pos _⟩
  cases hent with
  | invalid hm =>
    have ht : t ∉ q := h.valid hm ▸ not_mem_nil
    exact h.outside rfl rfl rfl rfl rfl ht hnot (nomatch ·)
  -- the owner takes it once more; the queue does not see it
  | again hm ho =>
    obtain ⟨hmem, hwait⟩ := hsame (h.recursive hm t ho)
    refine ⟨⟨h.queue, ?_, ?_, hmem, hwait, h.valid, h.recursive, ?_⟩, .inr ⟨.inl rfl, .inl rfl⟩⟩
    · intro u
      rw [ho]
      exact h.held_acquire (.inr ho) u
    · show 0 < s.mutex.refcount + 1 ↔ s.mutex.owner ≠ none
      rw [ho]
      exact hsome
    · intro hn
      rw [show s.mutex.owner = none from hn] at ho
      cases ho
  | free hm ho hq =>
    have ht : t ∉ q := hq ▸ not_mem_nil
    obtain ⟨hmem, hwait⟩ := hsame ht
    exact ⟨⟨h.queue, h.held_acquire (.inl ho), hsome, hmem, hwait, h.valid,
      fun _ u _ => hq ▸ not_mem_nil, nofun⟩, .inl ⟨t, ho, rfl, .inl ⟨hq, hq⟩⟩⟩
  -- the first of the queue leaves it with the mutex
  | @head f _ hm ho hq hf =>
    have hnd := h.queue.nodup
    rw [hq, nodup_cons] at hnd
    obtain ⟨hmem, hwait⟩ := h.places (r := s.finish t _ .ok) rfl
      (fun u hu => by rw [hq, mem_cons, or_iff_right hu]) (absurd · hnd.1) (nomatch ·)
    refine ⟨⟨hf, h.held_acquire (.inl ho), hsome, hmem, hwait, fun hv => absurd hv hm, ?_,
      nofun⟩, .inl ⟨t, ho, rfl, .inr hq⟩⟩
    intro _ u hu
    cases hu
    exact hnd.1

/-- A round of `sgx_thread_mutex_lock`. -/
theorem Inv.round [Fintype T] (h : Inv s q) (hstep : step (.round t) s = some s') :
    ∃ q', Inv s' q' ∧ Passes s s' q q' := by
  simp only [step] at hstep
  split at hstep
  case h_2 => cases hstep
  rename_i hpc
  have hnot : ∀ w, s.pc t ≠ .notify w := fun w hw => by rw [hpc] at hw; cases hw
  have hother : ∀ u, u ≠ t → update s.pc t .wait u = s.pc u := fun u hu => update_of_ne hu ..
  obtain ⟨next', m', r, q', hlock, hout⟩ := Mutex.lock_spec h.queue t
  rw [hlock] at hstep
  cases hout with
  | entered hent =>
    cases hstep
    exact ⟨q', h.entered hnot hent⟩
  | queued hb hq =>
    cases hstep
    refine ⟨q, h.idle rfl rfl rfl rfl (fun _ => .inr rfl) (fun _ => hq) ?_⟩
    -- the thread goes to sleep only if it is not the first one of a free mutex
    intro hn x hx hx'
    have hxt : x ≠ t := by
      intro heq
      rcases hb.taken with hb | ⟨-, hb⟩
      · exact hb hn
      · exact hb (heq ▸ hx)
    exact hx'.update hxt (hnot x) hother rfl
  | tail hb hq hf hframe =>
    cases hstep
    obtain ⟨hmem, hwait⟩ := h.places (r := { s with next := next' }.setPc t .wait) rfl
      (l := q ++ [t]) (fun u hu => by rw [mem_append, mem_singleton, or_iff_left hu])
      (fun _ => .inr rfl) (fun _ => mem_append_right q (mem_singleton_self t))
    refine ⟨q ++ [t], ⟨hf, h.held, h.count, hmem, hwait, fun hv => absurd hv hb.valid, ?_, ?_⟩,
      .inr ⟨.inl rfl, .inr ⟨t, hq, rfl⟩⟩⟩
    · intro hrec u hu hmem
      rcases mem_append.mp hmem with hmem | hmem
      · exact h.recursive hrec u hu hmem
      · rw [mem_singleton.mp hmem] at hu
        exact hb.other hrec hu
    · -- the first thread of the queue is the same as before
      intro hn x hx
      have hne : q ≠ [] := by
        rcases hb.taken with hb | ⟨hb, -⟩
        · exact absurd hn hb
        · exact hb
      rw [List.head?_append_of_ne_nil q hne] at hx
      have hxt : x ≠ t := fun heq => hq (heq ▸ List.mem_of_mem_head? hx)
      exact (h.awake hn x hx).update hxt (hnot x) hother rfl

theorem Inv.trylock [Fintype T] (h : Inv s q) (hstep : step (.trylock t) s = some s') :
    ∃ q', Inv s' q' ∧ Passes s s' q q' := by
  simp only [step] at hstep
  split at hstep
  case h_2 => cases hstep
  rename_i r hpc
  have hnot : ∀ w, s.pc t ≠ .notify w := fun w hw => by rw [hpc] at hw; cases hw
  obtain ⟨m', r, q', henter, hout⟩ := Mutex.enter_spec h.queue t
  rw [Mutex.trylock, henter] at hstep
  cases hstep
  cases r with
  | some e => exact ⟨q', h.entered hnot hout⟩
  | none =>
    cases hout with
    | busy hb =>
      -- `EBUSY`: nothing has changed
      exact ⟨q, h.outside rfl rfl rfl rfl rfl (h.notMem (by simp [hpc]) (by simp [hpc])) hnot
        (nomatch ·)⟩

/-- The thread that gives the mutex free is about to wake the first one of the queue. -/
theorem Inv.unlock [Fintype T] (h : Inv s q) (hstep : step (.unlock t) s = some s') :
    Inv s' q ∧ Passes s s' q q := by
  simp only [step] at hstep
  split at hstep
  case h_2 => cases hstep
  rename_i r hpc
  obtain ⟨m', e, w, hunlock, hout⟩ := Mutex.unlockLazy_spec h.queue t
  rw [hunlock] at hstep
  cases hstep
  have ht : t ∉ q := h.notMem (by simp [hpc]) (by simp [hpc])
  have hwait : Pc.unlocked e w ≠ .wait := by
    cases w with
    | some | none => exact nofun
  have hplaces := h.places (r := s.release t m' e w) rfl (fun _ _ => Iff.rfl) (absurd · ht)
    (absurd · hwait)
  cases hout with
  | failed he hf =>
    have hheld : (s.release t s.mutex e none).held = s.held := if_neg he
    exact h.outside rfl rfl hheld rfl rfl ht (fun w hw => by rw [hpc] at hw; cases hw) hwait
  -- the owner still holds it
  | inner ho hr =>
    have hpos : 0 < s.mutex.refcount - 1 := Nat.pos_of_ne_zero hr
    refine ⟨⟨h.queue, ?_, ?_, hplaces.1, hplaces.2, h.valid, h.recursive, ?_⟩,
      .inr ⟨.inl rfl, .inl rfl⟩⟩
    · intro u
      show update s.held t (s.held t - 1) u =
        if s.mutex.owner = some u then s.mutex.refcount - 1 else 0
      by_cases hut : u = t
      · rw [hut, update_self, h.held t, if_pos ho, if_pos ho]
      · have hne : s.mutex.owner ≠ some u := by
          rw [ho]
          exact fun heq => hut (some.inj heq).symm
        rw [update_of_ne hut, h.held u, if_neg hne, if_neg hne]
    · show 0 < s.mutex.refcount - 1 ↔ s.mutex.owner ≠ none
      rw [ho]
      exact ⟨fun _ => some_ne_none t, fun _ => hpos⟩
    · intro hn
      rw [show s.mutex.owner = none from hn] at ho
      cases ho
  -- it is free, and the first of the queue is about to be notified
  | last ho hr =>
    refine ⟨⟨h.queue, ?_, ?_, hplaces.1, hplaces.2, h.valid, nofun, ?_⟩,
      .inr ⟨.inr rfl, .inl rfl⟩⟩
    · intro u
      show update s.held t (s.held t - 1) u = 0
      by_cases hut : u = t
      · rw [hut, update_self, h.held t, if_pos ho]
        exact hr
      · have hne : s.mutex.owner ≠ some u := by
          rw [ho]
          exact fun heq => hut (some.inj heq).symm
        rw [update_of_ne hut, h.held u, if_neg hne]
    · exact ⟨fun hpos => absurd hpos (Nat.lt_irrefl 0), fun hne => absurd rfl hne⟩
    · intro _ x hx
      refine .inr (.inr ⟨t, (update_self ..).trans ?_⟩)
      rw [hx]
      rfl

/-- The event is set. -/
theorem Inv.notify [Fintype T] (h : Inv s q) (hstep : step (.notify t) s = some s') :
    Inv s' q ∧ Passes s s' q q := by
  simp only [step] at hstep
  split at hstep
  case h_2 => cases hstep
  rename_i w hpc
  cases hstep
  have ht : t ∉ q := h.notMem (by simp [hpc]) (by simp [hpc])
  refine h.idle rfl rfl rfl rfl (absurd · ht) (nomatch ·) ?_
  intro _ x hx hx'
  by_cases hxw : x = w
  · refine .inr (.inl ?_)
    rw [hxw]
    exact update_self ..
  -- the event of another thread: what kept `x` awake is still there
  · have hxt : x ≠ t := fun heq => ht (heq ▸ List.mem_of_mem_head? hx)
    refine hx'.update hxt ?_ (fun u hu => pc_setPc_of_ne hu) (update_of_ne hxw ..)
    rw [hpc]
    exact fun heq => hxw (Pc.notify.inj heq).symm

/-- A wait ends, for whatever reason. -/
theorem Inv.wake [Fintype T] {keep : Bool} (h : Inv s q) (hstep : step (.wake t keep) s = some s') :
    Inv s' q ∧ Passes s s' q q := by
  simp only [step] at hstep
  split at hstep
  case h_2 => cases hstep
  rename_i hpc
  cases hstep
  refine h.idle rfl rfl rfl rfl (fun _ => .inl rfl) (nomatch ·) ?_
  intro _ x _ hx'
  by_cases hxt : x = t
  · rw [hxt]
    exact .inl pc_setPc_self
  · exact hx'.update hxt (by simp [hpc]) (fun u hu => pc_setPc_of_ne hu) (update_of_ne hxt ..)

theorem Inv.post (h : Inv s q) : Inv (s.setEvent t true) q := by
  refine { h with awake := ?_ }
  intro hn x hx
  rcases h.awake hn x hx with hl | he | hu
  · exact .inl hl
  · refine .inr (.inl ?_)
    by_cases hxt : x = t
    · rw [hxt]
      exact update_self ..
    · exact (update_of_ne hxt ..).trans he
  · exact .inr (.inr hu)

/-- **The step lemma.** -/
theorem Inv.step [Fintype T] {a : Action T} (h : Inv s q) (hstep : Mutexes.step a s = some s') :
    ∃ q', Inv s' q' ∧ Passes s s' q q' := by
  cases a with
  | lock t =>
    simp only [Mutexes.step] at hstep
    split at hstep
    · rename_i r hpc
      cases hstep
      exact ⟨q, h.outside rfl rfl rfl rfl rfl (h.notMem (by simp [hpc]) (by simp [hpc]))
        (by simp [hpc]) (nomatch ·)⟩
    · cases hstep
  | round t => exact h.round hstep
  | trylock t => exact h.trylock hstep
  | unlock t => exact ⟨q, h.unlock hstep⟩
  | notify t => exact ⟨q, h.notify hstep⟩
  | wake t keep => exact ⟨q, h.wake hstep⟩
  | post t =>
    cases hstep
    exact ⟨q, h.post, .inr ⟨.inl rfl, .inl rfl⟩⟩

theorem inv_init (control : Control) (next : Links T) : Inv (init control next) [] where
  queue := Fifo.holds_empty
  held := fun _ => rfl
  count := ⟨fun hpos => absurd hpos (Nat.lt_irrefl 0), fun hne => absurd rfl hne⟩
  mem := nofun
  wait := nofun
  valid := fun _ => rfl
  recursive := nofun
  awake := nofun

theorem exists_inv_of_run [Fintype T] {control : Control} {next : Links T} {l : List (Action T)}
    (hrun : run Mutexes.step l (init control next) = some s) : ∃ q, Inv s q :=
  invariant_of_run (I := fun s => ∃ q, Inv s q)
    (fun _ _ _ ⟨_, h⟩ hstep => have ⟨q', h', _⟩ := h.step hstep; ⟨q', h'⟩) hrun
    ⟨[], inv_init control next⟩

/-- The links are good: a thread in front of a round can always take it. -/
theorem Inv.exists_round [Fintype T] (h : Inv s q) (hpc : s.pc t = .lock) :
    ∃ s', Mutexes.step (.round t) s = some s' := by
  obtain ⟨next', m', r, q', hlock, -⟩ := Mutex.lock_spec h.queue t
  simp only [Mutexes.step, hpc, hlock]
  cases r with
  | some | none => exact ⟨_, rfl⟩

/-- **The mutex is correct under any scheduler.**  In every run, of a mutex of any kind:
* at most one thread holds the mutex, it is the owner, and the count is what it holds;
* the queue is a list `q` without duplicates, and every step passes the mutex on in its order;
* if the mutex is free, then the first thread of the queue runs, has an event, or some thread is
  about to set its event; and a thread that runs is never stopped by a bad link. -/
theorem mutex_correct [Fintype T] {control : Control} {next : Links T} {l : List (Action T)}
    (hrun : run Mutexes.step l (init control next) = some s) :
    (∀ t u, 0 < s.held t → 0 < s.held u → t = u) ∧
    (∀ t, 0 < s.held t ↔ s.mutex.owner = some t) ∧
    (0 < s.mutex.refcount ↔ s.mutex.owner ≠ none) ∧
    ∃ q, s.mutex.queue.Holds s.next q ∧
      (s.mutex.owner = none → ∀ h, q.head? = some h → Awake s h) ∧
      (∀ t, s.pc t = .lock → ∃ s', Mutexes.step (.round t) s = some s') ∧
      ∀ a s', Mutexes.step a s = some s' → ∃ q', s'.mutex.queue.Holds s'.next q' ∧ Passes s s' q q' := by
  obtain ⟨q, h⟩ := exists_inv_of_run hrun
  have hheld : ∀ t, 0 < s.held t ↔ s.mutex.owner = some t := by
    intro t
    rw [h.held t]
    by_cases ho : s.mutex.owner = some t
    · rw [if_pos ho]
      refine ⟨fun _ => ho, fun _ => h.count.mpr ?_⟩
      rw [ho]
      exact some_ne_none t
    · rw [if_neg ho]
      exact ⟨fun hpos => absurd hpos (Nat.lt_irrefl 0), fun heq => absurd heq ho⟩
  refine ⟨?_, hheld, h.count, q, h.queue, h.awake, fun _ hpc => h.exists_round hpc, ?_⟩
  · intro t u ht hu
    have htu := (hheld t).mp ht
    rw [(hheld u).mp hu] at htu
    exact (some.inj htu).symm
  · intro a s' hstep
    obtain ⟨q', h', hpass⟩ := h.step hstep
    exact ⟨q', h'.queue, hpass⟩

/-- Two threads, and the second one has to wait. -/
def contended : List (Action Bool) :=
  [.lock false, .round false, .lock true, .round true, .unlock false]

theorem mutex_correct_contended :
    ∃ s, run Mutexes.step contended (init .nonrecursive fun _ => none) = some s ∧
      ∃ q, s.mutex.queue.Holds s.next q ∧
        (s.mutex.owner = none → ∀ h, q.head? = some h → Awake s h) := by
  obtain ⟨s, hs⟩ := isSome_iff_exists.mp
    (by decide : (run Mutexes.step contended (init .nonrecursive fun _ => none)).isSome = true)
  obtain ⟨-, -, -, q, hq, hawake, -⟩ := mutex_correct hs
  exact ⟨s, hs, q, hq, hawake⟩

end Sethread.Mutexes
