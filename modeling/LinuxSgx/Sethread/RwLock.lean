/-
The reader-writer lock under any scheduler.

Any number of threads use one lock, each of them releasing only what it holds.  A release wakes all
queued readers or one queued writer, after it has given up the spinlock; a thread that is woken
looks again, and may find that another one was faster.

* `Threads`, `Action`, `step` — the lock with its threads;
* `Ample` — the list of the readers to be woken can be allocated, and the number of readers fits
  into its 32 bits;
* `Inv` — the invariant, for the lists of the waiting readers and writers;
* **`rwlock_correct`** — then writers are alone, readers are counted, and no wake-up is lost;
* **`lost_wakeup`** — without memory a release wakes nobody, and all readers sleep on a free lock.
-/
import LinuxSgx.Sethread.Objects
import LinuxSgx.Lib.Runs
import Mathlib.Data.Fintype.BigOperators


open Runs Function List Option

namespace Sethread.RwLocks

/-! ### The threads of a lock -/

/-- Where a thread is: out of all calls, in the wait of `rdlock` or `wrlock`, back from it, or in
front of the events that a release sets. -/
inductive Pc (T : Type) where
  | done (r : Errno)
  | wait (mode : Mode)
  | again (mode : Mode)
  | notify (ws : List T)
  deriving DecidableEq

/-- The place of a thread that has given up the spinlock of a release. -/
def Pc.unlocked {T : Type} (e : Errno) : List T → Pc T
  | [] => .done e
  | ws => .notify ws

/-- `event t` if an event was set for `t` that no wait has taken yet.  `reads` and `writes` are not
in the code: what each thread holds. -/
structure Threads (T : Type) where
  lock : RwLock T
  next : Links T
  pc : T → Pc T
  event : T → Bool
  reads : T → ℕ
  writes : T → Bool

/-- `wake` returns from a wait, with or without an event; `keep` if an event stays.  `post` is an
event from anywhere else. -/
inductive Action (T : Type) where
  | rdlock (t : T)
  | wrlock (t : T)
  | tryrdlock (t : T)
  | trywrlock (t : T)
  | again (t : T)
  | rdunlock (t : T)
  | wrunlock (t : T) (malloc : Bool)
  | unlock (t : T) (malloc : Bool)
  | notify (t : T)
  | wake (t : T) (keep : Bool)
  | post (t : T)

variable {T : Type} {s s' : Threads T} {q q' : Mode → List T} {t : T} {mode : Mode}

def init (next : Links T) : Threads T :=
  ⟨RwLock.init, next, fun _ => .done .ok, fun _ => false, fun _ => 0, fun _ => false⟩

namespace Threads

variable [DecidableEq T] (s)

def setEvent (t : T) (b : Bool) : Threads T := { s with event := Function.update s.event t b }

def setPc (t : T) (pc : Pc T) : Threads T := { s with pc := Function.update s.pc t pc }

/-- The thread has got the lock. -/
def got (t : T) : Mode → Threads T
  | .read => { s with reads := Function.update s.reads t (s.reads t + 1) }
  | .write => { s with writes := Function.update s.writes t true }

/-- The thread has given the lock back. -/
def gave (t : T) : Mode → Threads T
  | .read => { s with reads := Function.update s.reads t (s.reads t - 1) }
  | .write => { s with writes := Function.update s.writes t false }

/-- A part of `rdlock` or `wrlock` is over: with a result, or with a wait. -/
def locked (t : T) (mode : Mode) (next : Links T) (l : RwLock T) (r : Option Errno) : Threads T :=
  let s := { s with lock := l, next := next }
  match r with
  | some .ok => (s.setPc t (.done .ok)).got t mode
  | some e => s.setPc t (.done e)
  | none => s.setPc t (.wait mode)

/-- A release is over but for its events. -/
def released (t : T) (mode : Mode) (l : RwLock T) (e : Errno) (ws : List T) : Threads T :=
  ({ s with lock := l }.setPc t (.unlocked e ws)).gave t mode

/-- A thread that is in no call. -/
def isDone (t : T) : Bool :=
  match s.pc t with
  | .done _ => true
  | _ => false

end Threads

/-- One part of a call.  A lock is released only by a thread that holds it. -/
def step [DecidableEq T] [Fintype T] (a : Action T) (s : Threads T) : Option (Threads T) :=
  match a with
  | .rdlock t =>
    if s.isDone t then
      (s.lock.rdlock s.next t).map fun r => s.locked t .read r.1 r.2.1 r.2.2
    else none
  | .wrlock t =>
    if s.isDone t then
      (s.lock.wrlock s.next t).map fun r => s.locked t .write r.1 r.2.1 r.2.2
    else none
  | .tryrdlock t =>
    if s.isDone t then
      let r := s.lock.tryrdlock t
      some (s.locked t .read s.next r.1 (some r.2))
    else none
  | .trywrlock t =>
    if s.isDone t then
      let r := s.lock.trywrlock t
      some (s.locked t .write s.next r.1 (some r.2))
    else none
  | .again t =>
    match s.pc t with
    | .again mode =>
      (s.lock.lockAgain mode s.next t).map fun r => s.locked t mode r.1 r.2.1 r.2.2
    | _ => none
  | .rdunlock t =>
    if s.isDone t ∧ 0 < s.reads t then
      let r := s.lock.rdunlock
      some (s.released t .read r.1 r.2.1 r.2.2)
    else none
  | .wrunlock t malloc =>
    if s.isDone t ∧ s.writes t then
      (s.lock.wrunlock malloc s.next t).map fun r => s.released t .write r.1 r.2.1 r.2.2
    else none
  | .unlock t malloc =>
    if s.isDone t ∧ (0 < s.reads t ∨ s.writes t) then
      (s.lock.unlock malloc s.next t).map fun r =>
        s.released t (if s.lock.owner = some t then .write else .read) r.1 r.2.1 r.2.2
    else none
  | .notify t =>
    match s.pc t with
    | .notify (w :: ws) => some ((s.setPc t (.unlocked .ok ws)).setEvent w true)
    | _ => none
  | .wake t keep =>
    match s.pc t with
    | .wait mode => some ((s.setPc t (.again mode)).setEvent t (s.event t && keep))
    | _ => none
  | .post t => some (s.setEvent t true)

/-- What has to go well: there is memory for the readers to be woken, and the count of the readers
does not wrap around. -/
def Ample [Fintype T] (s : Threads T) : Action T → Prop
  | .rdlock _ => ∑ t, s.reads t < 2 ^ 32 - 1
  | .tryrdlock _ => ∑ t, s.reads t < 2 ^ 32 - 1
  | .again t => s.pc t = .again .read → ∑ t, s.reads t < 2 ^ 32 - 1
  | .wrunlock _ malloc => malloc = true ∨ s.lock.readerQueue.first = none
  | .unlock _ malloc => malloc = true ∨ s.lock.readerQueue.first = none
  | _ => True

instance [DecidableEq T] [Fintype T] (s : Threads T) (a : Action T) : Decidable (Ample s a) := by
  cases a <;> unfold Ample <;> infer_instance

/-! ### The invariant -/

/-- The thread `x` will look at the lock again: it runs, an event is set for it, or some thread is
about to set it. -/
def Awake (s : Threads T) (x : T) : Prop :=
  (∃ mode, s.pc x = .again mode) ∨ s.event x = true ∨ ∃ u ws, s.pc u = .notify ws ∧ x ∈ ws

structure Inv [Fintype T] (s : Threads T) (q : Mode → List T) : Prop where
  queue : ∀ mode, (s.lock.queue mode).Holds s.next (q mode)
  mem : ∀ mode t, t ∈ q mode ↔ s.pc t = .wait mode ∨ s.pc t = .again mode
  count : s.lock.readerCount.toNat = ∑ t, s.reads t
  writes : ∀ t, s.writes t = true ↔ s.lock.owner = some t
  alone : s.lock.owner ≠ none → s.lock.readerCount = 0
  readers : s.lock.owner = none → ∀ x ∈ q .read, Awake s x
  writers : s.lock.owner = none → s.lock.readerCount = 0 → q .read = [] →
    ∀ x, (q .write).head? = some x → Awake s x

variable {pc : Pc T}

theorem pc_setPc_self [DecidableEq T] : (s.setPc t pc).pc t = pc := update_self ..

theorem pc_setPc_of_ne [DecidableEq T] {u : T} (hu : u ≠ t) : (s.setPc t pc).pc u = s.pc u :=
  update_of_ne hu ..

/-- A thread that is not about to wake `x` changes its place. -/
theorem Awake.update {x : T} (h : Awake s x) (hx : x ≠ t) (hnot : ∀ ws, s.pc t = .notify ws → x ∉ ws)
    (hpc : ∀ u, u ≠ t → s'.pc u = s.pc u) (hevent : s'.event x = s.event x) : Awake s' x := by
  rcases h with ⟨mode, h⟩ | h | ⟨u, ws, hu, hx'⟩
  · exact .inl ⟨mode, by rw [hpc x hx, h]⟩
  · exact .inr (.inl (by rw [hevent, h]))
  · have hut : u ≠ t := fun heq => hnot ws (heq ▸ hu) hx'
    exact .inr (.inr ⟨u, ws, by rw [hpc u hut, hu], hx'⟩)

theorem exists_done (h : s.isDone t = true) : ∃ r, s.pc t = .done r := by
  rw [Threads.isDone] at h
  split at h
  · exact ⟨_, ‹_›⟩
  · cases h

section Sums

variable [DecidableEq T] [Fintype T]

theorem sum_update_eq (f : T → ℕ) (t : T) (n : ℕ) :
    ∑ u, update f t n u + f t = ∑ u, f u + n := by
  have hself : ∑ u, f u = f t + ∑ u ∈ Finset.univ \ {t}, f u := by
    rw [← Finset.sum_update_of_mem (Finset.mem_univ t), update_eq_self]
  rw [Finset.sum_update_of_mem (Finset.mem_univ t), hself]
  omega

theorem le_sum (f : T → ℕ) (t : T) : f t ≤ ∑ u, f u := by
  have hzero := sum_update_eq f t 0
  omega

end Sums

/-- The queue that a thread is in. -/
def Pc.queued : Pc T → Option Mode
  | .wait mode => some mode
  | .again mode => some mode
  | _ => none

theorem Pc.queued_eq : pc.queued = some mode ↔ pc = .wait mode ∨ pc = .again mode := by
  cases pc with
  | done | wait | again | notify => simp [Pc.queued]

theorem Pc.queued_unlocked {e : Errno} {ws : List T} : (Pc.unlocked e ws).queued = none := by
  cases ws with
  | nil | cons => rfl

theorem Inv.mem_iff [Fintype T] (h : Inv s q) : t ∈ q mode ↔ (s.pc t).queued = some mode := by
  rw [h.mem, Pc.queued_eq]

theorem Inv.notMem [Fintype T] (h : Inv s q) (hpc : (s.pc t).queued = none) (mode : Mode) :
    t ∉ q mode := by
  rw [h.mem_iff, hpc]
  exact nofun

theorem Inv.disjoint [Fintype T] (h : Inv s q) {m m' : Mode} (hm : m' ≠ m) {u : T} (hu : u ∈ q m) :
    u ∉ q m' := by
  rw [h.mem_iff] at hu ⊢
  rw [hu]
  exact fun heq => hm (some.inj heq).symm

/-- Only the thread `t` changes its place, in the queues and out of them. -/
theorem Inv.places [DecidableEq T] [Fintype T] {r : Threads T} (h : Inv s q)
    (hpc : r.pc = update s.pc t pc)
    (hq : ∀ m u, u ≠ t → (u ∈ q' m ↔ u ∈ q m)) (ht : ∀ m, t ∈ q' m ↔ pc.queued = some m) (m : Mode)
    (u : T) : u ∈ q' m ↔ r.pc u = .wait m ∨ r.pc u = .again m := by
  rw [hpc, ← Pc.queued_eq]
  by_cases hu : u = t
  · rw [hu, update_self]
    exact ht m
  · rw [update_of_ne hu, hq m u hu, h.mem_iff]

/-- Nobody gets the lock and nobody gives it back. -/
theorem Inv.same [Fintype T] (h : Inv s q) (hcount : s'.lock.readerCount = s.lock.readerCount)
    (howner : s'.lock.owner = s.lock.owner) (hheld : s'.reads = s.reads ∧ s'.writes = s.writes)
    (hqueue : ∀ m, (s'.lock.queue m).Holds s'.next (q' m))
    (hmem : ∀ m u, u ∈ q' m ↔ s'.pc u = .wait m ∨ s'.pc u = .again m)
    (hreaders : s.lock.owner = none → ∀ x ∈ q' .read, Awake s' x)
    (hwriters : s.lock.owner = none → s.lock.readerCount = 0 → q' .read = [] →
      ∀ x, (q' .write).head? = some x → Awake s' x) : Inv s' q' := by
  obtain ⟨_, _, hc, hw, ha, _, _⟩ := h
  rw [← hcount, ← hheld.1] at hc
  rw [← hheld.2, ← howner] at hw
  rw [← hcount, ← howner] at ha hwriters
  rw [← howner] at hreaders
  exact ⟨hqueue, hmem, hc, hw, ha, hreaders, hwriters⟩

/-- A change of places and events only; the threads that were awake still are. -/
theorem Inv.move [Fintype T] (h : Inv s q) (hlock : s'.lock = s.lock) (hnext : s'.next = s.next)
    (hheld : s'.reads = s.reads ∧ s'.writes = s.writes)
    (hmem : ∀ m u, u ∈ q m ↔ s'.pc u = .wait m ∨ s'.pc u = .again m)
    (hawake : ∀ m x, x ∈ q m → Awake s x → Awake s' x) : Inv s' q := by
  refine h.same (by rw [hlock]) (by rw [hlock]) hheld ?_ hmem ?_ ?_
  · rw [hlock, hnext]
    exact h.queue
  · exact fun ho x hx => hawake _ x hx (h.readers ho x hx)
  · exact fun ho hzero hnil x hx =>
      hawake _ x (mem_of_mem_head? hx) (h.writers ho hzero hnil x hx)

/-! ### The steps -/

/-- One queue is changed; the links of the other one are not. -/
theorem Inv.queue_update [Fintype T] (h : Inv s q) {l₀ : RwLock T} {f : Fifo T} {next : Links T}
    {qm : List T} (hl₀ : ∀ m, l₀.queue m = s.lock.queue m) (hf : f.Holds next qm)
    (hframe : ∀ m, m ≠ mode → ∀ u ∈ q m, next u = s.next u) (m : Mode) :
    ((l₀.setQueue f mode).queue m).Holds next (update q mode qm m) := by
  by_cases hm : m = mode
  · rw [hm, RwLock.queue_setQueue_self, update_self]
    exact hf
  · rw [RwLock.queue_setQueue_of_ne hm, update_of_ne hm, hl₀]
    exact (h.queue m).congr (hframe m hm)

theorem inv_init [Fintype T] (next : Links T) : Inv (init next) fun _ => [] where
  queue := fun mode => by
    cases mode with
    | read | write => exact Fifo.holds_empty
  mem := fun _ _ => ⟨nofun, (fun ht => ht.elim nofun nofun)⟩
  count := (Finset.sum_const_zero).symm
  writes := fun _ => ⟨nofun, nofun⟩
  alone := fun hne => absurd rfl hne
  readers := nofun
  writers := nofun

section Steps

variable [DecidableEq T] [Fintype T] {l : RwLock T} {next : Links T}

/-- **A thread gets the lock**, from the queue or not. -/
theorem Inv.take (h : Inv s q) (hfree : s.lock.Free mode)
    (hroom : mode = .read → ∑ t, s.reads t < 2 ^ 32 - 1)
    (hcount : l.readerCount = (s.lock.take t mode).readerCount)
    (howner : l.owner = (s.lock.take t mode).owner) (hnot : ∀ ws, s.pc t ≠ .notify ws)
    (hqueue : ∀ mode, (l.queue mode).Holds next (q' mode))
    (hq : ∀ mode u, u ∈ q' mode ↔ u ≠ t ∧ u ∈ q mode) :
    Inv (s.locked t mode next l (some .ok)) q' := by
  have hpc : (s.locked t mode next l (some .ok)).pc = update s.pc t (.done .ok) := by
    cases mode with
    | read | write => rfl
  have hmem := h.places hpc (fun m u hu => by rw [hq, and_iff_right hu])
    (fun m => by simp [hq, Pc.queued])
  cases mode with
  | read =>
    have ho : s.lock.owner = none := hfree
    -- the counter of the readers does not overflow
    have hlt : s.lock.readerCount.toNat + 1 < 2 ^ 32 := by
      have hsum := hroom rfl
      have hc := h.count
      omega
    have htoNat : l.readerCount.toNat = s.lock.readerCount.toNat + 1 := by
      rw [hcount]
      exact Nat.mod_eq_of_lt hlt
    refine ⟨hqueue, hmem, ?_, ?_, ?_, ?_, ?_⟩
    · show l.readerCount.toNat = ∑ u, update s.reads t (s.reads t + 1) u
      have hsum := sum_update_eq s.reads t (s.reads t + 1)
      have hc := h.count
      omega
    · intro u
      show s.writes u = true ↔ l.owner = some u
      rw [howner]
      exact h.writes u
    · intro hne
      exact absurd (howner.trans ho) hne
    · -- the other readers of the queue were awake, and still are
      intro _ x hx
      obtain ⟨hxt, hx⟩ := (hq .read x).mp hx
      exact (h.readers ho x hx).update hxt (fun ws hw => absurd hw (hnot ws))
        (fun u hu => update_of_ne hu ..) rfl
    · intro _ hzero
      rw [show l.readerCount = 0 from hzero] at htoNat
      cases htoNat
  | write =>
    -- with a writer nothing is promised to those who wait
    obtain ⟨ho, hzero⟩ := hfree
    have hown : l.owner = some t := howner
    have hnone : l.owner ≠ none := by
      rw [hown]
      exact some_ne_none t
    refine ⟨hqueue, hmem, ?_, ?_, ?_, (absurd · hnone), (absurd · hnone)⟩
    · show l.readerCount.toNat = ∑ u, s.reads u
      rw [hcount]
      exact h.count
    · intro u
      show update s.writes t true u = true ↔ l.owner = some u
      rw [hown]
      by_cases hu : u = t
      · rw [hu, update_self]
        exact ⟨fun _ => rfl, fun _ => rfl⟩
      · rw [update_of_ne hu, h.writes u, ho]
        exact ⟨nofun, fun heq => absurd (some.inj heq).symm hu⟩
    · intro _
      show l.readerCount = 0
      rw [hcount]
      exact hzero

variable {e r : Errno}

/-- A call that returns with an error, or with a lock it did not get. -/
theorem Inv.failed (h : Inv s q) (hpc : s.pc t = .done r) : Inv (s.setPc t (.done e)) q := by
  have ht : ∀ m, t ∉ q m := h.notMem (by rw [hpc]; rfl)
  refine h.move rfl rfl ⟨rfl, rfl⟩ (h.places rfl (fun _ _ _ => Iff.rfl) ?_) ?_
  · intro m
    simp [ht m, Pc.queued]
  · intro m x hx hx'
    have hxt : x ≠ t := fun heq => ht m (heq ▸ hx)
    exact hx'.update hxt (by simp [hpc]) (fun u hu => pc_setPc_of_ne hu) rfl

/-- A lock that cannot be had: the lists of the threads that are awake are not looked at, or they
do not change. -/
theorem Inv.sleep (h : Inv s q) (hbusy : ¬ s.lock.Free mode) (hnot : ∀ ws, s.pc t ≠ .notify ws)
    (hcount : l.readerCount = s.lock.readerCount) (howner : l.owner = s.lock.owner)
    (hqueue : ∀ mode, (l.queue mode).Holds next (q' mode))
    (hq : ∀ m u, u ≠ t → (u ∈ q' m ↔ u ∈ q m)) (ht : ∀ m, t ∈ q' m ↔ mode = m) :
    Inv (s.locked t mode next l none) q' := by
  have hmem := h.places (r := s.locked t mode next l none) rfl hq
    (fun m => by rw [ht, Pc.queued, some_inj])
  refine h.same hcount howner ⟨rfl, rfl⟩ hqueue hmem ?_ ?_
  · intro ho x hx
    cases mode with
    | read => exact absurd ho hbusy
    | write =>
      have hxt : x ≠ t := by
        rintro rfl
        exact nomatch (ht .read).mp hx
      exact (h.readers ho x ((hq _ x hxt).mp hx)).update hxt (fun ws hw => absurd hw (hnot ws))
        (fun u hu => update_of_ne hu ..) rfl
  · intro ho hzero
    cases mode with
    | read => exact absurd ho hbusy
    | write => exact absurd ⟨ho, hzero⟩ hbusy

/-- A thread outside of the queues gets a lock that is free. -/
theorem Inv.takeFree (h : Inv s q) (hpc : s.pc t = .done r) (hfree : s.lock.Free mode)
    (hroom : mode = .read → ∑ t, s.reads t < 2 ^ 32 - 1) :
    Inv (s.locked t mode s.next (s.lock.take t mode) (some .ok)) q := by
  refine h.take hfree hroom rfl rfl (by simp [hpc]) ?_ ?_
  · intro m
    rw [RwLock.queue_take]
    exact h.queue m
  · intro m u
    exact ⟨fun hu => ⟨fun heq => h.notMem (by rw [hpc]; rfl) m (heq ▸ hu), hu⟩, fun hu => hu.2⟩

/-- `rdlock` and `wrlock` up to their wait. -/
theorem Inv.lock (mode : Mode) (h : Inv s q) (hpc : s.pc t = .done r)
    (hstep : (s.lock.lock mode s.next t).map (fun r => s.locked t mode r.1 r.2.1 r.2.2) = some s')
    (hroom : mode = .read → ∑ t, s.reads t < 2 ^ 32 - 1) : ∃ q', Inv s' q' := by
  have ht : ∀ m, t ∉ q m := h.notMem (by rw [hpc]; rfl)
  obtain ⟨next', l', r', q', hlock, hout⟩ := RwLock.lock_spec (h.queue mode) (ht mode)
  rw [hlock] at hstep
  cases hstep
  cases hout with
  | free hfree => exact ⟨q, h.takeFree hpc hfree hroom⟩
  | own hbusy ho => exact ⟨q, h.failed hpc⟩
  | tail hbusy hf hframe =>
    refine ⟨update q mode (q mode ++ [t]), ?_⟩
    refine h.sleep hbusy (by simp [hpc]) RwLock.readerCount_setQueue RwLock.owner_setQueue ?_ ?_ ?_
    · refine h.queue_update (fun _ => rfl) hf ?_
      intro m hm u hu
      exact hframe u (fun heq => ht m (heq ▸ hu)) (h.disjoint hm.symm hu)
    · intro m u hu
      by_cases hm : m = mode
      · rw [hm, update_self, mem_append, mem_singleton, or_iff_left hu]
      · rw [update_of_ne hm]
    · intro m
      by_cases hm : m = mode
      · rw [hm, update_self]
        exact ⟨fun _ => rfl, fun _ => mem_append_right _ (mem_singleton_self t)⟩
      · rw [update_of_ne hm]
        exact ⟨fun hc => absurd hc (ht m), fun heq => absurd heq.symm hm⟩

/-- `rdlock` and `wrlock` after a wait. -/
theorem Inv.again (h : Inv s q) (hpc : s.pc t = .again mode)
    (hroom : mode = .read → ∑ t, s.reads t < 2 ^ 32 - 1)
    (hstep : (s.lock.lockAgain mode s.next t).map (fun r => s.locked t mode r.1 r.2.1 r.2.2) =
      some s') : ∃ q', Inv s' q' := by
  have hmem : ∀ m, t ∈ q m ↔ mode = m := fun m => by simp [h.mem_iff, hpc, Pc.queued]
  have ht : t ∈ q mode := (hmem mode).mpr rfl
  obtain ⟨next', l', r', q', hlock, hout⟩ := RwLock.lockAgain_spec (h.queue mode) ht
  rw [hlock] at hstep
  cases hstep
  cases hout with
  | free hfree hf hframe =>
    refine ⟨update q mode ((q mode).erase t), ?_⟩
    refine h.take hfree hroom RwLock.readerCount_setQueue RwLock.owner_setQueue (by simp [hpc]) ?_ ?_
    · refine h.queue_update (fun _ => RwLock.queue_take) hf ?_
      intro m hm u hu
      exact hframe u (h.disjoint hm.symm hu)
    · intro m u
      by_cases hm : m = mode
      · rw [hm, update_self]
        exact (h.queue mode).nodup.mem_erase_iff
      · rw [update_of_ne hm]
        exact ⟨fun hu => ⟨fun heq => h.disjoint hm ht (heq ▸ hu), hu⟩, fun hu => hu.2⟩
  | busy hbusy =>
    exact ⟨q, h.sleep hbusy (by simp [hpc]) rfl rfl h.queue (fun _ _ _ => Iff.rfl) hmem⟩

theorem Inv.trylock (h : Inv s q) (hpc : s.pc t = .done r)
    (hroom : mode = .read → ∑ t, s.reads t < 2 ^ 32 - 1) :
    Inv (s.locked t mode s.next (s.lock.trylock mode t).1 (some (s.lock.trylock mode t).2)) q := by
  rw [RwLock.trylock]
  by_cases hfree : s.lock.Free mode
  · rw [if_pos hfree]
    exact h.takeFree hpc hfree hroom
  · rw [if_neg hfree]
    exact h.failed hpc

/-- **A release** by a thread outside of the queues.  The threads `ws` will be woken. -/
theorem Inv.release {ws : List T} (h : Inv s q) (hpc : s.pc t = .done r)
    (hqueue : ∀ m, l.queue m = s.lock.queue m) (hnone : l.owner = none)
    (hcount : l.readerCount.toNat = ∑ u, (s.gave t mode).reads u)
    (hwrites : ∀ u, (s.gave t mode).writes u = false) (hreaders : ∀ x ∈ q .read, Awake s x ∨ x ∈ ws)
    (hwriters : l.readerCount = 0 → q .read = [] → ∀ x, (q .write).head? = some x → Awake s x ∨ x ∈ ws) :
    Inv (s.released t mode l e ws) q := by
  have hgave : ∀ s : Threads T, (s.gave t mode).pc = s.pc ∧ (s.gave t mode).event = s.event ∧
      (s.gave t mode).lock = s.lock ∧ (s.gave t mode).next = s.next := by
    intro s
    cases mode with
    | read | write => exact ⟨rfl, rfl, rfl, rfl⟩
  obtain ⟨hgpc, hgevent, hglock, hgnext⟩ := hgave ({ s with lock := l }.setPc t (.unlocked e ws))
  have hpc' : (s.released t mode l e ws).pc = update s.pc t (.unlocked e ws) := hgpc
  have ht : ∀ m, t ∉ q m := h.notMem (by rw [hpc]; rfl)
  have hmem := h.places hpc' (fun _ _ _ => Iff.rfl) fun m => by simp [ht m, Pc.queued_unlocked]
  -- the threads of `ws` are about to get an event
  have hawake : ∀ m x, x ∈ q m → Awake s x ∨ x ∈ ws → Awake (s.released t mode l e ws) x := by
    intro m x hxm hx
    rcases hx with hx | hx
    · have hxt : x ≠ t := fun heq => ht m (heq ▸ hxm)
      exact hx.update hxt (by simp [hpc]) (fun u hu => by rw [hpc', update_of_ne hu]) (by
        rw [Threads.released, hgevent]
        rfl)
    · refine .inr (.inr ⟨t, ws, ?_, hx⟩)
      rw [hpc', update_self]
      cases ws with
      | nil => cases hx
      | cons w ws => rfl
  have hlock : (s.released t mode l e ws).lock = l := hglock
  refine ⟨?_, hmem, ?_, ?_, ?_, ?_, ?_⟩
  · intro m
    rw [hlock, hqueue m, show (s.released t mode l e ws).next = s.next from hgnext]
    exact h.queue m
  · rw [hlock, hcount]
    cases mode with
    | read | write => rfl
  · intro u
    have hu : (s.released t mode l e ws).writes u = false := by
      rw [← hwrites u]
      cases mode with
      | read | write => rfl
    rw [hlock, hu, hnone]
    exact ⟨nofun, nofun⟩
  · intro hown
    rw [hlock] at hown
    exact absurd hnone hown
  · exact fun _ x hx => hawake _ x hx (hreaders x hx)
  · intro _ hzero hnil x hx
    rw [hlock] at hzero
    exact hawake _ x (mem_of_mem_head? hx) (hwriters hzero hnil x hx)

/-- The last reader wakes the first writer. -/
theorem Inv.rdunlock (h : Inv s q) (hpc : s.pc t = .done r) (hreads : 0 < s.reads t) :
    Inv (s.released t .read s.lock.rdunlock.1 s.lock.rdunlock.2.1 s.lock.rdunlock.2.2) q := by
  have hc := h.count
  have hle := le_sum s.reads t
  have hpos : 0 < s.lock.readerCount.toNat := by omega
  have hne : s.lock.readerCount ≠ 0 := by
    intro heq
    rw [heq] at hpos
    exact absurd hpos (Nat.lt_irrefl 0)
  have hnone : s.lock.owner = none := by
    by_contra hown
    exact hne (h.alone hown)
  have hone : (1 : UInt32) ≤ s.lock.readerCount := UInt32.le_iff_toNat_le.mpr hpos
  have hcount : (s.lock.readerCount - 1).toNat = s.lock.readerCount.toNat - 1 :=
    UInt32.toNat_sub_of_le _ _ hone
  rw [RwLock.rdunlock_spec (h.queue .write) hne]
  refine h.release hpc ?_ hnone ?_ ?_ ?_ ?_
  · intro m
    cases m with
    | read | write => rfl
  · show (s.lock.readerCount - 1).toNat = ∑ u, update s.reads t (s.reads t - 1) u
    have hsum := sum_update_eq s.reads t (s.reads t - 1)
    omega
  · intro u
    have hiff := h.writes u
    rw [hnone] at hiff
    exact Bool.eq_false_iff.mpr fun heq => nomatch hiff.mp heq
  · exact fun x hx => .inl (h.readers hnone x hx)
  · intro hzero _ x hx
    refine .inr ?_
    rw [if_pos hzero, hx]
    exact mem_singleton_self x

/-- The writer wakes all readers, or the first writer. -/
theorem Inv.wrunlock {malloc : Bool} (h : Inv s q) (hpc : s.pc t = .done r)
    (hwrites : s.writes t = true) (hmalloc : malloc = true ∨ s.lock.readerQueue.first = none)
    (hstep : (s.lock.wrunlock malloc s.next t).map
      (fun r => s.released t .write r.1 r.2.1 r.2.2) = some s') : Inv s' q := by
  have ho : s.lock.owner = some t := (h.writes t).mp hwrites
  have hgood : ¬ (q .read ≠ [] ∧ malloc = false) := by
    rintro ⟨hne, hfalse⟩
    rcases hmalloc with hm | hm
    · rw [hm] at hfalse
      cases hfalse
    · exact hne ((h.queue .read).first_eq_none.mp hm)
  rw [RwLock.wrunlock_spec (h.queue .read) (h.queue .write) ho, if_neg hgood] at hstep
  cases hstep
  refine h.release hpc ?_ rfl ?_ ?_ ?_ ?_
  · intro m
    cases m with
    | read | write => rfl
  · exact h.count
  · intro u
    show update s.writes t false u = false
    by_cases hu : u = t
    · rw [hu, update_self]
    · rw [update_of_ne hu]
      refine Bool.eq_false_iff.mpr fun heq => hu ?_
      have hown := (h.writes u).mp heq
      rw [ho] at hown
      exact (some.inj hown).symm
  · intro x hx
    refine .inr ?_
    rw [if_neg (ne_nil_of_mem hx)]
    exact hx
  · intro _ hnil x hx
    refine .inr ?_
    rw [if_pos hnil, hx]
    exact mem_singleton_self x

/-- An event is set. -/
theorem Inv.notify {w : T} {ws : List T} (h : Inv s q) (hpc : s.pc t = .notify (w :: ws)) :
    Inv ((s.setPc t (.unlocked .ok ws)).setEvent w true) q := by
  have ht : ∀ m, t ∉ q m := h.notMem (by rw [hpc]; rfl)
  refine h.move rfl rfl ⟨rfl, rfl⟩ (h.places rfl (fun _ _ _ => Iff.rfl) ?_) ?_
  · intro m
    simp [ht m, Pc.queued_unlocked]
  · intro m x hxm hx
    by_cases hxw : x = w
    · rw [hxw]
      exact .inr (.inl (update_self ..))
    by_cases hxs : x ∈ ws
    · -- the list of `t` has lost only its first thread
      refine .inr (.inr ⟨t, ws, pc_setPc_self.trans ?_, hxs⟩)
      cases ws with
      | nil => cases hxs
      | cons w ws => rfl
    · have hxt : x ≠ t := fun heq => ht m (heq ▸ hxm)
      refine hx.update hxt ?_ (fun u hu => pc_setPc_of_ne hu) (update_of_ne hxw ..)
      intro ws' hws
      rw [hpc] at hws
      cases hws
      simp [hxw, hxs]

/-- A wait ends, for whatever reason. -/
theorem Inv.wake {b : Bool} (h : Inv s q) (hpc : s.pc t = .wait mode) :
    Inv ((s.setPc t (.again mode)).setEvent t b) q := by
  refine h.move rfl rfl ⟨rfl, rfl⟩ (h.places rfl (fun _ _ _ => Iff.rfl) ?_) ?_
  · intro m
    rw [h.mem_iff, hpc]
    exact Iff.rfl
  · intro m x _ hx
    by_cases hxt : x = t
    · rw [hxt]
      exact .inl ⟨mode, pc_setPc_self⟩
    · exact hx.update hxt (by simp [hpc]) (fun u hu => pc_setPc_of_ne hu) (update_of_ne hxt ..)

theorem Inv.post (h : Inv s q) : Inv (s.setEvent t true) q := by
  refine h.move rfl rfl ⟨rfl, rfl⟩ h.mem ?_
  intro m x _ hx
  rcases hx with hx | hx | hx
  · exact .inl hx
  · refine .inr (.inl ?_)
    by_cases hxt : x = t
    · rw [hxt]
      exact update_self ..
    · exact (update_of_ne hxt ..).trans hx
  · exact .inr (.inr hx)

/-- **The step lemma.** -/
theorem Inv.step {a : Action T} (h : Inv s q) (hample : Ample s a)
    (hstep : RwLocks.step a s = some s') : ∃ q', Inv s' q' := by
  cases a <;> simp only [RwLocks.step] at hstep
  case again t =>
    split at hstep
    · rename_i mode hpc
      exact h.again hpc (fun heq => hample (by rw [hpc, heq])) hstep
    · cases hstep
  case notify t =>
    split at hstep
    · rename_i w ws hpc
      cases hstep
      exact ⟨q, h.notify hpc⟩
    · cases hstep
  case wake t keep =>
    split at hstep
    · rename_i mode hpc
      cases hstep
      exact ⟨q, h.wake hpc⟩
    · cases hstep
  case post t =>
    cases hstep
    exact ⟨q, h.post⟩
  -- a thread that was out of all calls
  all_goals rw [ite_none_right_eq_some] at hstep
  case' rdunlock | wrunlock | unlock => rw [and_assoc] at hstep
  all_goals obtain ⟨hdone, hstep⟩ := hstep
  all_goals obtain ⟨r, hpc⟩ := exists_done hdone
  case rdlock t => exact h.lock .read hpc hstep (fun _ => hample)
  case wrlock t => exact h.lock .write hpc hstep nofun
  case tryrdlock t =>
    cases hstep
    exact ⟨q, h.trylock hpc (fun _ => hample)⟩
  case trywrlock t =>
    cases hstep
    exact ⟨q, h.trylock hpc nofun⟩
  case rdunlock t =>
    obtain ⟨hreads, ⟨⟩⟩ := hstep
    exact ⟨q, h.rdunlock hpc hreads⟩
  case wrunlock t malloc => exact ⟨q, h.wrunlock hpc hstep.1 hample hstep.2⟩
  case unlock t malloc =>
    obtain ⟨hheld, hstep⟩ := hstep
    split_ifs at hstep with ho
    · rw [RwLock.unlock, if_pos ho] at hstep
      exact ⟨q, h.wrunlock hpc ((h.writes t).mpr ho) hample hstep⟩
    · rw [RwLock.unlock, if_neg ho] at hstep
      cases hstep
      -- a thread that does not own the lock holds it for reading
      exact ⟨q, h.rdunlock hpc (hheld.resolve_right fun hw => ho ((h.writes t).mp hw))⟩

theorem exists_inv_of_run {actions : List (Action T)}
    (hrun : run (only Ample RwLocks.step) actions (init next) = some s) : ∃ q, Inv s q :=
  invariant_of_run (I := fun s => ∃ q, Inv s q)
    (fun _ _ _ ⟨_, h⟩ hstep =>
      have ⟨hample, hstep⟩ := only_eq_some.mp hstep
      h.step hample hstep) hrun ⟨_, inv_init next⟩

end Steps

/-! ### The result -/

/-- **The reader-writer lock is correct under any scheduler**, if the readers to be woken can be
listed and the count of the readers does not wrap around.  In every run:
* a writer is alone: no reader holds the lock, and no other writer;
* `m_reader_count` is the number of reader holds, and `m_owner` is the writer;
* if the lock is free and some thread is queued, then some queued thread runs, has an event, or
  is about to get one. -/
theorem rwlock_correct [DecidableEq T] [Fintype T] {next : Links T} {actions : List (Action T)}
    (hrun : run (only Ample RwLocks.step) actions (init next) = some s) :
    (∀ t, s.writes t = true → (∀ u, s.reads u = 0) ∧ ∀ u, s.writes u = true → u = t) ∧
    s.lock.readerCount.toNat = ∑ t, s.reads t ∧
    (∀ t, s.writes t = true ↔ s.lock.owner = some t) ∧
    ∃ q : Mode → List T, (∀ mode, (s.lock.queue mode).Holds s.next (q mode)) ∧
      (s.lock.owner = none → s.lock.readerCount = 0 → (∃ mode, q mode ≠ []) →
        ∃ mode x, x ∈ q mode ∧ Awake s x) := by
  obtain ⟨q, h⟩ := exists_inv_of_run hrun
  refine ⟨?_, h.count, h.writes, q, h.queue, ?_⟩
  · intro t ht
    have ho : s.lock.owner = some t := (h.writes t).mp ht
    refine ⟨?_, ?_⟩
    · intro u
      have hcount := h.count
      rw [h.alone (by rw [ho]; exact some_ne_none t)] at hcount
      have hle := le_sum s.reads u
      rw [← hcount] at hle
      exact Nat.le_zero.mp hle
    · intro u hu
      have hu := (h.writes u).mp hu
      rw [ho] at hu
      exact (some.inj hu).symm
  · rintro ho hzero ⟨mode, hne⟩
    cases hr : q .read with
    | cons x l =>
      have hx : x ∈ q .read := by
        rw [hr]
        exact mem_cons_self
      exact ⟨.read, x, hx, h.readers ho x hx⟩
    | nil =>
      -- then a writer is queued, and the first one is awake
      have hw : q .write ≠ [] := by
        cases mode with
        | read => exact absurd hr hne
        | write => exact hne
      obtain ⟨x, hx⟩ := ne_none_iff_exists'.mp (mt head?_eq_none_iff.mp hw)
      exact ⟨.write, x, mem_of_mem_head? hx, h.writers ho hzero hr x hx⟩

/-- A reader and a writer wait for a writer. -/
def queued : List (Action (Fin 3)) := [.wrlock 0, .rdlock 1, .wrlock 2, .wrunlock 0 true]

theorem rwlock_correct_queued :
    ∃ s, run (only Ample RwLocks.step) queued (init fun _ => none) = some s ∧
      ∃ q : Mode → List (Fin 3), (∀ mode, (s.lock.queue mode).Holds s.next (q mode)) ∧
        (s.lock.owner = none → s.lock.readerCount = 0 → (∃ mode, q mode ≠ []) →
          ∃ mode x, x ∈ q mode ∧ Awake s x) := by
  obtain ⟨s, hs⟩ := isSome_iff_exists.mp
    (by decide : (run (only Ample RwLocks.step) queued (init fun _ => none)).isSome = true)
  obtain ⟨-, -, -, hq⟩ := rwlock_correct hs
  exact ⟨s, hs, hq⟩

/-- The state in which one thread has locked the lock for reading `n` times. -/
def reading (n : ℕ) : Threads Bool :=
  { init (fun _ => none) with
    lock := { RwLock.init with readerCount := UInt32.ofNat n }
    reads := Function.update (fun _ => 0) false n }

theorem step_reading (n : ℕ) : RwLocks.step (.rdlock false) (reading n) = some (reading (n + 1)) := by
  have hcount : UInt32.ofNat n + 1 = UInt32.ofNat (n + 1) := by
    rw [UInt32.ofNat_add]
    rfl
  have hpc : update (fun _ : Bool => (.done .ok : Pc Bool)) false (.done .ok) =
      fun _ => .done .ok :=
    update_eq_self ..
  have hreads : update (reading n).reads false ((reading n).reads false + 1) =
      (reading (n + 1)).reads := by
    show update (update (fun _ => 0) false n) false (n + 1) = _
    rw [update_idem]
    rfl
  show some (⟨{ RwLock.init with readerCount := UInt32.ofNat n + 1 }, fun _ => none,
    update (fun _ : Bool => .done .ok) false (.done .ok), fun _ => false,
    update (reading n).reads false ((reading n).reads false + 1), fun _ => false⟩ :
    Threads Bool) = _
  rw [hcount, hpc, hreads]
  rfl

theorem run_reading (n : ℕ) :
    run RwLocks.step (replicate n (.rdlock false)) (reading 0) = some (reading n) := by
  induction n with
  | zero => rfl
  | succ n ih =>
    rw [replicate_succ', run_concat]
    exact ⟨reading n, ih, step_reading n⟩

theorem init_eq_reading : (init fun _ => none : Threads Bool) = reading 0 := by
  have hreads : update (fun _ : Bool => 0) false 0 = fun _ => 0 := update_eq_self ..
  rw [reading, hreads]
  rfl

/-- The count is 0 again, so that a writer gets the lock as well. -/
theorem exists_writer_reading {n : ℕ} (hn : UInt32.ofNat n = 0) :
    ∃ s, run RwLocks.step (replicate n (.rdlock false) ++ [.trywrlock true])
      (init fun _ => none) = some s ∧ s.reads false = n ∧ s.writes true = true := by
  have hlock : (reading n).lock = RwLock.init := by
    show ({ RwLock.init with readerCount := UInt32.ofNat n } : RwLock Bool) = _
    rw [hn]
    rfl
  have hstep : RwLocks.step (.trywrlock true) (reading n) =
      some ((reading n).locked true .write (reading n).next
        ((reading n).lock.trywrlock true).1 (some ((reading n).lock.trywrlock true).2)) := rfl
  rw [hlock] at hstep
  rw [init_eq_reading]
  exact ⟨_, run_concat.mpr ⟨reading n, run_reading n, hstep⟩, rfl, rfl⟩

/-- A writer releases the lock while a reader waits, and there is no memory for the list of the
readers: the lock is free, the reader sleeps in the queue, and nobody is going to wake it.
And after `2 ^ 32` locks for reading a writer gets the lock, too. -/
theorem lost_wakeup :
    (∃ s, run RwLocks.step [.wrlock false, .rdlock true, .wrunlock false false]
        (init fun _ => none) = some s ∧
      (s.lock.owner, s.lock.readerCount, s.lock.readerQueue.first) = (none, 0, some true) ∧
      (s.pc false, s.pc true, s.event true) = (.done .enomem, .wait .read, false)) ∧
    ∃ s, run RwLocks.step (replicate (2 ^ 32) (.rdlock false) ++ [.trywrlock true])
        (init fun _ => none) = some s ∧ s.reads false = 2 ^ 32 ∧ s.writes true = true := by
  refine ⟨?_, exists_writer_reading (by decide)⟩
  exact ⟨_, rfl, by decide, by decide⟩

end Sethread.RwLocks
