/-
The wait queues of all mutexes, condition variables and reader-writer locks together.

A thread has one link for all queues, so that it must never be in two of them.  Any number of
threads call any operations on any objects here.  A wait may end at any time, which covers all
events; so only the parts under spinlocks are left.  The spinlock of a condition variable is
held by `sgx_thread_cond_wait` while it unlocks the mutex; all other parts are one step.

* `System`, `Action`, `step` — the objects and the threads;
* `Pc.blockedOn` — the queue in which a thread at some place should be;
* `Proper` — a thread waits on a condition variable only with a mutex it owns, and no object is
  initialised while threads are in its queues;
* **`queues_disjoint`** — then every queue is a list of exactly the threads blocked on it;
* **`two_queues`** — `sgx_thread_cond_wait` with another mutex fails and leaves the thread behind in
  the queue, and a later lock puts it into a second one.
-/
import LinuxSgx.Sethread.Objects
import LinuxSgx.Lib.Runs


open Runs Function List

namespace Sethread.WaitQueues

/-! ### The objects and the threads -/

/-- The queues of all objects. -/
inductive Queue (M C R : Type) where
  | mutex (m : M)
  | cond (c : C)
  | rwlock (r : R) (mode : Mode)
  deriving DecidableEq

/-- Where a thread is: out of all calls, in front of the first or of a later round of
`sgx_thread_mutex_lock` (`inCond` if that is the end of `sgx_thread_cond_wait`), in
`sgx_thread_cond_wait` in front of the mutex or in the wait, or in the wait of `rdlock` or `wrlock`.
`woken` is not in the code: the thread has been taken out of the queue. -/
inductive Pc (M C R : Type) where
  | done (e : Errno)
  | lock (m : M) (inCond : Bool)
  | lockAgain (m : M) (inCond : Bool)
  | condUnlock (c : C) (m : M)
  | condWait (c : C) (m : M) (woken : Bool)
  | rwWait (r : R) (mode : Mode)
  deriving DecidableEq

variable {T M C R : Type}

namespace Pc

/-- The queue a thread should be in. -/
def blockedOn : Pc M C R → Option (Queue M C R)
  | .lockAgain m _ => some (.mutex m)
  | .condUnlock c _ => some (.cond c)
  | .condWait c _ false => some (.cond c)
  | .rwWait r mode => some (.rwlock r mode)
  | _ => none

/-- The condition variable whose spinlock the thread holds. -/
def spinlock : Pc M C R → Option C
  | .condUnlock c _ => some c
  | _ => none

/-- The thread is taken out of the queue of a condition variable. -/
def wake : Pc M C R → Pc M C R
  | .condWait c m _ => .condWait c m true
  | pc => pc

def isDone : Pc M C R → Bool
  | .done _ => true
  | _ => false

end Pc

structure System (T M C R : Type) where
  mutex : M → Mutex T
  cond : C → Fifo T
  rwlock : R → RwLock T
  next : Links T
  pc : T → Pc M C R

/-- The calls, and the parts `round`, `condUnlock`, `condCheck`, `rwAgain` inside of calls. -/
inductive Action (T M C R : Type) where
  | mutexInit (t : T) (m : M)
  | mutexDestroy (t : T) (m : M)
  | condInit (t : T) (c : C)
  | condDestroy (t : T) (c : C)
  | rwlockInit (t : T) (r : R)
  | rwlockDestroy (t : T) (r : R)
  | mutexLock (t : T) (m : M)
  | round (t : T)
  | mutexTrylock (t : T) (m : M)
  | mutexUnlock (t : T) (m : M)
  | condWait (t : T) (c : C) (m : M)
  | condUnlock (t : T)
  | condCheck (t : T)
  | condSignal (t : T) (c : C)
  | condBroadcast (t : T) (c : C) (malloc : Bool)
  | rwLock (t : T) (r : R) (mode : Mode)
  | rwAgain (t : T)
  | rwTrylock (t : T) (r : R) (mode : Mode)
  | rdunlock (t : T) (r : R)
  | wrunlock (t : T) (r : R) (malloc : Bool)
  | rwUnlock (t : T) (r : R) (malloc : Bool)

section Model

variable [DecidableEq T] [DecidableEq M] [DecidableEq C] [DecidableEq R]

/-- Mutexes of any kind, all objects unused. -/
def init (control : M → Control) (next : Links T) : System T M C R :=
  ⟨fun m => { Mutex.init with control := control m }, fun _ => .empty, fun _ => RwLock.init, next,
    fun _ => .done .ok⟩

namespace System

variable (s : System T M C R)

def fifo : Queue M C R → Fifo T
  | .mutex m => (s.mutex m).queue
  | .cond c => s.cond c
  | .rwlock r mode => (s.rwlock r).queue mode

def setPc (t : T) (pc : Pc M C R) : System T M C R := { s with pc := Function.update s.pc t pc }

def setMutex (m : M) (v : Mutex T) : System T M C R := { s with mutex := Function.update s.mutex m v }

def setCond (c : C) (f : Fifo T) : System T M C R := { s with cond := Function.update s.cond c f }

def setRwlock (r : R) (l : RwLock T) : System T M C R :=
  { s with rwlock := Function.update s.rwlock r l }

def setNext (next : Links T) : System T M C R := { s with next := next }

/-- The threads of a list are taken out of a condition variable. -/
def wakeAll (ws : List T) : System T M C R :=
  { s with pc := fun t => if t ∈ ws then (s.pc t).wake else s.pc t }

/-- Nobody holds the spinlock of the condition variable. -/
def SpinFree (c : C) : Prop := ∀ t, (s.pc t).spinlock ≠ some c

instance [Fintype T] (c : C) : Decidable (s.SpinFree c) :=
  inferInstanceAs (Decidable (∀ t, (s.pc t).spinlock ≠ some c))

/-- A round of `sgx_thread_mutex_lock`. -/
def round [Fintype T] (t : T) (m : M) (inCond : Bool) : Option (System T M C R) :=
  ((s.mutex m).lock s.next t).map fun r =>
    ((s.setMutex m r.2.1).setNext r.1).setPc t
      (match r.2.2 with
        | some e => .done (if inCond then .ok else e)
        | none => .lockAgain m inCond)

/-- A part of `rdlock` or `wrlock` is over. -/
def rwLocked (t : T) (r : R) (mode : Mode) (x : Links T × RwLock T × Option Errno) :
    System T M C R :=
  ((s.setRwlock r x.2.1).setNext x.1).setPc t
    (match x.2.2 with
      | some e => .done e
      | none => .rwWait r mode)

end System

/-- One part of one call. -/
def step [Fintype T] (a : Action T M C R) (s : System T M C R) : Option (System T M C R) :=
  match a with
  | .mutexInit t m =>
    if (s.pc t).isDone then some ((s.setMutex m .init).setPc t (.done .ok)) else none
  | .mutexDestroy t m =>
    if (s.pc t).isDone then
      let r := (s.mutex m).destroy
      some ((s.setMutex m r.1).setPc t (.done r.2))
    else none
  | .condInit t c =>
    if (s.pc t).isDone then some ((s.setCond c .empty).setPc t (.done .ok)) else none
  | .condDestroy t c =>
    if (s.pc t).isDone ∧ s.SpinFree c then some (s.setPc t (.done (Cond.destroy (s.cond c)))) else none
  | .rwlockInit t r =>
    if (s.pc t).isDone then some ((s.setRwlock r .init).setPc t (.done .ok)) else none
  | .rwlockDestroy t r =>
    if (s.pc t).isDone then some (s.setPc t (.done (s.rwlock r).destroy)) else none
  | .mutexLock t m =>
    if (s.pc t).isDone then some (s.setPc t (.lock m false)) else none
  | .round t =>
    match s.pc t with
    | .lock m inCond => s.round t m inCond
    | .lockAgain m inCond => s.round t m inCond
    | _ => none
  | .mutexTrylock t m =>
    if (s.pc t).isDone then
      ((s.mutex m).trylock s.next t).map fun r => (s.setMutex m r.1).setPc t (.done r.2)
    else none
  | .mutexUnlock t m =>
    if (s.pc t).isDone then
      let r := (s.mutex m).unlockLazy t
      some ((s.setMutex m r.1).setPc t (.done r.2.1))
    else none
  | .condWait t c m =>
    if (s.pc t).isDone ∧ s.SpinFree c then
      (Fifo.insertTail s.next (s.cond c) t).map fun r =>
        ((s.setCond c r.2).setNext r.1).setPc t (.condUnlock c m)
    else none
  | .condUnlock t =>
    match s.pc t with
    | .condUnlock c m =>
      let r := (s.mutex m).unlockLazy t
      some ((s.setMutex m r.1).setPc t (if r.2.1 = .ok then .condWait c m false else .done r.2.1))
    | _ => none
  | .condCheck t =>
    match s.pc t with
    | .condWait c m _ =>
      if s.SpinFree c then
        (Fifo.contains s.next (s.cond c) t).map fun b => if b then s else s.setPc t (.lock m true)
      else none
    | _ => none
  | .condSignal t c =>
    if (s.pc t).isDone ∧ s.SpinFree c then
      (Cond.signal s.next (s.cond c)).map fun r =>
        ((s.setCond c r.1).wakeAll r.2.toList).setPc t (.done .ok)
    else none
  | .condBroadcast t c malloc =>
    if (s.pc t).isDone ∧ s.SpinFree c then
      (Cond.broadcast malloc s.next (s.cond c)).map fun r =>
        ((s.setCond c r.1).wakeAll r.2.2).setPc t (.done r.2.1)
    else none
  | .rwLock t r mode =>
    if (s.pc t).isDone then ((s.rwlock r).lock mode s.next t).map (s.rwLocked t r mode) else none
  | .rwAgain t =>
    match s.pc t with
    | .rwWait r mode => ((s.rwlock r).lockAgain mode s.next t).map (s.rwLocked t r mode)
    | _ => none
  | .rwTrylock t r mode =>
    if (s.pc t).isDone then
      let x := (s.rwlock r).trylock mode t
      some ((s.setRwlock r x.1).setPc t (.done x.2))
    else none
  | .rdunlock t r =>
    if (s.pc t).isDone then
      let x := (s.rwlock r).rdunlock
      some ((s.setRwlock r x.1).setPc t (.done x.2.1))
    else none
  | .wrunlock t r malloc =>
    if (s.pc t).isDone then
      ((s.rwlock r).wrunlock malloc s.next t).map fun x =>
        (s.setRwlock r x.1).setPc t (.done x.2.1)
    else none
  | .rwUnlock t r malloc =>
    if (s.pc t).isDone then
      ((s.rwlock r).unlock malloc s.next t).map fun x =>
        (s.setRwlock r x.1).setPc t (.done x.2.1)
    else none

/-- What the callers have to respect. -/
def Proper (s : System T M C R) : Action T M C R → Prop
  | .condWait t _ m => (s.mutex m).owner = some t ∧ (s.mutex m).control ≠ .other
  | .mutexInit _ m => (s.mutex m).owner = none ∧ (s.mutex m).queue.first = none
  | .condInit _ c => (s.cond c).first = none
  | .rwlockInit _ r => (s.rwlock r).readerQueue.first = none ∧ (s.rwlock r).writerQueue.first = none
  | _ => True

instance (s : System T M C R) (a : Action T M C R) : Decidable (Proper s a) := by
  cases a <;> unfold Proper <;> infer_instance

/-- What the callers have to respect, and that no mutex is destroyed while a thread waits with it. -/
def Careful (s : System T M C R) (a : Action T M C R) : Prop :=
  Proper s a ∧
    match a with
    | .round t =>
      match s.pc t with
      | .lock m true => (s.mutex m).control ≠ .other
      | _ => True
    | _ => True

instance (s : System T M C R) (a : Action T M C R) : Decidable (Careful s a) := by
  unfold Careful
  refine @instDecidableAnd _ _ _ ?_
  cases a with
  | round t =>
    dsimp only
    generalize s.pc t = pc
    cases pc with
    | lock m inCond => cases inCond <;> infer_instance
    | _ => infer_instance
  | _ => infer_instance

end Model

/-! ### The invariant -/

variable {s s' : System T M C R} {q : Queue M C R → List T} {t : T} {m : M} {c : C} {r : R}
  {x : Queue M C R} {pc : Pc M C R}

/-- The queues are lists, and they contain the threads that should be in them. -/
structure Listed (s : System T M C R) (q : Queue M C R → List T) : Prop where
  holds : ∀ x, (s.fifo x).Holds s.next (q x)
  mem : ∀ t x, t ∈ q x ↔ (s.pc t).blockedOn = some x

/-- A thread in `sgx_thread_cond_wait` owns its mutex; a thread in the queue of a mutex will
not leave it by an error or as its owner. -/
structure Inv (s : System T M C R) (q : Queue M C R → List T) : Prop extends Listed s q where
  owner : ∀ t c m, s.pc t = .condUnlock c m →
    (s.mutex m).owner = some t ∧ (s.mutex m).control ≠ .other
  valid : ∀ m, (s.mutex m).control = .other → q (.mutex m) = []
  recursive : ∀ m, (s.mutex m).control = .recursive → ∀ t, (s.mutex m).owner = some t →
    t ∉ q (.mutex m)

section Frame

theorem pc_setPc_self [DecidableEq T] : (s.setPc t pc).pc t = pc := update_self ..

theorem pc_setPc_of_ne [DecidableEq T] {u : T} (hu : u ≠ t) : (s.setPc t pc).pc u = s.pc u :=
  update_of_ne hu ..

theorem condUnlock_of_setPc [DecidableEq T] {u : T} (hpc : ∀ c m, pc ≠ .condUnlock c m)
    (hu : (s.setPc t pc).pc u = .condUnlock c m) : u ≠ t ∧ s.pc u = .condUnlock c m := by
  by_cases hut : u = t
  · rw [hut, pc_setPc_self] at hu
    exact absurd hu (hpc c m)
  · rw [pc_setPc_of_ne hut] at hu
    exact ⟨hut, hu⟩

theorem fifo_setMutex_self [DecidableEq M] {v : Mutex T} :
    (s.setMutex m v).fifo (.mutex m) = v.queue := by
  show (update s.mutex m v m).queue = v.queue
  rw [update_self]

theorem fifo_setMutex_of_ne [DecidableEq M] {v : Mutex T} (hx : x ≠ .mutex m) :
    (s.setMutex m v).fifo x = s.fifo x := by
  cases x with
  | mutex m' =>
    have hm : m' ≠ m := fun heq => hx (by rw [heq])
    show (update s.mutex m v m').queue = (s.mutex m').queue
    rw [update_of_ne hm]
  | cond | rwlock => rfl

theorem fifo_setCond_self [DecidableEq C] {f : Fifo T} : (s.setCond c f).fifo (.cond c) = f :=
  update_self ..

theorem fifo_setCond_of_ne [DecidableEq C] {f : Fifo T} (hx : x ≠ .cond c) :
    (s.setCond c f).fifo x = s.fifo x := by
  cases x with
  | mutex | rwlock => rfl
  | cond c' =>
    have hc : c' ≠ c := fun heq => hx (by rw [heq])
    exact update_of_ne hc ..

theorem fifo_setRwlock_self [DecidableEq R] {l : RwLock T} {mode : Mode} :
    (s.setRwlock r l).fifo (.rwlock r mode) = l.queue mode := by
  show (update s.rwlock r l r).queue mode = l.queue mode
  rw [update_self]

theorem fifo_setRwlock_of_ne [DecidableEq R] {l : RwLock T} (hx : ∀ mode, x = .rwlock r mode →
    l.queue mode = (s.rwlock r).queue mode) : (s.setRwlock r l).fifo x = s.fifo x := by
  cases x with
  | mutex | cond => rfl
  | rwlock r' mode =>
    by_cases hr : r' = r
    · rw [hr, fifo_setRwlock_self]
      exact hx mode (by rw [hr])
    · show (update s.rwlock r l r').queue mode = (s.rwlock r').queue mode
      rw [update_of_ne hr]

end Frame

variable {qx : List T}

/-- The queue `x` is changed for the threads of `w`, which were in no other one. -/
theorem Listed.requeue [DecidableEq M] [DecidableEq C] [DecidableEq R] (h : Listed s q)
    (w : T → Prop) (hx : (s'.fifo x).Holds s'.next qx)
    (hfifo : ∀ y, y ≠ x → s'.fifo y = s.fifo y) (hnext : ∀ u, ¬w u → u ∉ q x → s'.next u = s.next u)
    (hother : ∀ u, ¬w u → s'.pc u = s.pc u ∧ (u ∈ qx ↔ u ∈ q x))
    (hself : ∀ u, w u → ∀ y, ((s.pc u).blockedOn = some y → y = x) ∧
      ((s'.pc u).blockedOn = some y ↔ y = x ∧ u ∈ qx)) : Listed s' (update q x qx) where
  holds := by
    intro y
    by_cases hy : y = x
    · rw [hy, update_self]
      exact hx
    · rw [update_of_ne hy, hfifo y hy]
      refine (h.holds y).congr fun u hu => ?_
      rw [h.mem] at hu
      refine hnext u (fun hw => hy ((hself u hw y).1 hu)) fun hux => ?_
      rw [h.mem, hu] at hux
      exact hy (Option.some.inj hux)
  mem := by
    intro u y
    by_cases hw : w u
    · rw [(hself u hw y).2]
      by_cases hy : y = x
      · rw [hy, update_self, and_iff_right rfl]
      · rw [update_of_ne hy, h.mem]
        exact ⟨fun hu => absurd ((hself u hw y).1 hu) hy, fun hu => absurd hu.1 hy⟩
    · rw [(hother u hw).1]
      by_cases hy : y = x
      · rw [hy, update_self, (hother u hw).2, h.mem]
      · rw [update_of_ne hy, h.mem]

/-- A thread moves within its queue, or outside of all queues. -/
theorem Listed.move [DecidableEq T] (h : Listed s q) (hfifo : ∀ y, s'.fifo y = s.fifo y)
    (hnext : s'.next = s.next)
    (hself : (s'.pc t).blockedOn = (s.pc t).blockedOn) (hother : ∀ u, u ≠ t → s'.pc u = s.pc u) :
    Listed s' q where
  holds := by
    intro y
    rw [hfifo y, hnext]
    exact h.holds y
  mem := by
    intro u y
    by_cases hu : u = t
    · rw [hu, hself]
      exact h.mem t y
    · rw [hother u hu]
      exact h.mem u y

/-! ### Changes of one object -/

variable {q' : Queue M C R → List T} {f : Fifo T} {ws : List T} {mode : Mode} {e : Errno}

/-- A step that does not touch the mutexes and their queues. -/
theorem Inv.keepMutex (h : Inv s q) (hl : Listed s' q') (hmutex : s'.mutex = s.mutex)
    (hq : ∀ m, q' (.mutex m) = q (.mutex m))
    (hpc : ∀ u c m, s'.pc u = .condUnlock c m → s.pc u = .condUnlock c m) : Inv s' q' where
  toListed := hl
  owner := by
    intro u c m hu
    rw [hmutex]
    exact h.owner u c m (hpc u c m hu)
  valid := by
    intro m hm
    rw [hmutex] at hm
    rw [hq]
    exact h.valid m hm
  recursive := by
    intro m hm u hu
    rw [hmutex] at hm hu
    rw [hq]
    exact h.recursive m hm u hu

/-- Only the place of the thread changes, and not its queue. -/
theorem Inv.goOn [DecidableEq T] (h : Inv s q) (hb : pc.blockedOn = (s.pc t).blockedOn)
    (hc : ∀ c m, pc ≠ .condUnlock c m) : Inv (s.setPc t pc) q := by
  refine h.keepMutex (h.toListed.move (fun _ => rfl) rfl ?_ (fun u hu => pc_setPc_of_ne hu)) rfl
    (fun _ => rfl) fun _ _ _ hu => (condUnlock_of_setPc hc hu).2
  rw [pc_setPc_self]
  exact hb

theorem blockedOn_of_isDone (h : (s.pc t).isDone = true) : (s.pc t).blockedOn = none := by
  cases hpc : s.pc t with
  | done | lock => rfl
  | _ =>
    rw [hpc] at h
    cases h

theorem Inv.notMem (h : Inv s q) (ht : (s.pc t).blockedOn = none) (x : Queue M C R) : t ∉ q x := by
  intro hx
  rw [h.mem, ht] at hx
  cases hx

/-- A thread in the queue is in the wait if nobody holds the spinlock. -/
theorem Inv.waits_of_mem (h : Inv s q) (hspin : s.SpinFree c) (ht : t ∈ q (.cond c)) :
    ∃ m, s.pc t = .condWait c m false := by
  have hb := (h.mem t _).mp ht
  have hfree := hspin t
  cases hpc : s.pc t with
  | condWait c' m woken =>
    rw [hpc] at hb
    cases woken with
    | true => cases hb
    | false =>
      cases hb
      exact ⟨m, rfl⟩
  | condUnlock c' m =>
    rw [hpc] at hb hfree
    cases hb
    exact absurd rfl hfree
  | _ =>
    rw [hpc] at hb
    cases hb

theorem blockedOn_wakeAll [DecidableEq T] [DecidableEq C] (h : (s.pc t).blockedOn = none) :
    (((s.setCond c f).wakeAll ws).pc t).blockedOn = none := by
  show (if t ∈ ws then (s.pc t).wake else s.pc t).blockedOn = none
  split_ifs
  · cases hpc : s.pc t with
    | condWait c m woken => rfl
    | _ =>
      rw [hpc] at h
      exact h
  · exact h

/-- A step that changes a reader-writer lock but not its queues. -/
theorem Inv.setRwlock [DecidableEq T] [DecidableEq R] {l : RwLock T} (h : Inv s q)
    (hl : ∀ mode, l.queue mode = (s.rwlock r).queue mode)
    (hb : pc.blockedOn = (s.pc t).blockedOn) (hc : ∀ c m, pc ≠ .condUnlock c m) :
    Inv ((s.setRwlock r l).setPc t pc) q := by
  have hset : Inv (s.setRwlock r l) q := by
    refine h.keepMutex (h.toListed.move (t := t) ?_ rfl rfl (fun _ _ => rfl)) rfl (fun _ => rfl)
      (fun _ _ _ hu => hu)
    intro y
    exact fifo_setRwlock_of_ne fun mode _ => hl mode
  exact hset.goOn hb hc

/-- The other queue of the lock is as it was. -/
theorem fifo_setQueue [DecidableEq R] {l₀ : RwLock T} {y : Queue M C R}
    (hl₀ : ∀ mode, l₀.queue mode = (s.rwlock r).queue mode) (hy : y ≠ .rwlock r mode) :
    (s.setRwlock r (l₀.setQueue f mode)).fifo y = s.fifo y := by
  refine fifo_setRwlock_of_ne fun mode' heq => ?_
  have hne : mode' ≠ mode := fun hm => hy (by rw [heq, hm])
  rw [RwLock.queue_setQueue_of_ne hne, hl₀]

theorem Inv.condInit [DecidableEq T] [DecidableEq C] (h : Inv s q) (ht : (s.pc t).blockedOn = none)
    (hfirst : (s.cond c).first = none) : Inv ((s.setCond c .empty).setPc t (.done e)) q := by
  obtain ⟨hempty, -⟩ := (h.holds (.cond c)).eq_empty hfirst
  have hsame : s.setCond c .empty = s := by
    have hupdate : update s.cond c .empty = s.cond := by
      rw [← hempty]
      exact update_eq_self ..
    rw [System.setCond, hupdate]
  rw [hsame]
  exact h.goOn ht.symm nofun

theorem Inv.rwlockInit [DecidableEq T] [DecidableEq R] (h : Inv s q)
    (ht : (s.pc t).blockedOn = none)
    (hread : (s.rwlock r).readerQueue.first = none)
    (hwrite : (s.rwlock r).writerQueue.first = none) :
    Inv ((s.setRwlock r .init).setPc t (.done e)) q := by
  refine h.setRwlock ?_ ht.symm nofun
  intro mode
  cases mode with
  | read => exact ((h.holds (.rwlock r .read)).eq_empty hread).1.symm
  | write => exact ((h.holds (.rwlock r .write)).eq_empty hwrite).1.symm

theorem inv_init (control : M → Control) (next : Links T) :
    Inv (init control next : System T M C R) fun _ => [] where
  holds := by
    intro x
    cases x with
    | mutex | cond => exact Fifo.holds_empty
    | rwlock r mode =>
      cases mode with
      | read | write => exact Fifo.holds_empty
  mem := fun _ _ => ⟨nofun, nofun⟩
  owner := nofun
  valid := fun _ _ => rfl
  recursive := nofun

theorem update_cond [DecidableEq M] [DecidableEq C] [DecidableEq R] {l : List T} (c' : C) :
    update q (.cond c) l (.cond c') = update (fun c => q (.cond c)) c l c' := by
  by_cases hc : c' = c
  · rw [hc, update_self, update_self]
  · rw [update_of_ne hc, update_of_ne fun heq => hc (Queue.cond.inj heq)]

/-! ### The steps -/

variable [DecidableEq T] [DecidableEq M] [DecidableEq C] [DecidableEq R] {next' : Links T}

/-- A thread enters the queue `x`. -/
theorem Listed.enqueue (h : Listed s q) (ht : (s.pc t).blockedOn = none)
    (hpc : pc.blockedOn = some x) (hs : s'.pc = s.pc) (hfx : s'.fifo x = f)
    (hx : f.Holds next' (q x ++ [t])) (hfifo : ∀ y, y ≠ x → s'.fifo y = s.fifo y)
    (hnext : ∀ u, u ≠ t → u ∉ q x → next' u = s.next u) :
    Listed ((s'.setNext next').setPc t pc) (update q x (q x ++ [t])) := by
  refine h.requeue (· = t) (hfx ▸ hx) hfifo hnext (fun u hu => ?_) ?_
  · rw [pc_setPc_of_ne hu, mem_append, mem_singleton, or_iff_left hu]
    exact ⟨congrFun hs u, Iff.rfl⟩
  · rintro _ rfl y
    simp [pc_setPc_self, ht, hpc, eq_comm]

/-- The thread that was in the queue `x` leaves it. -/
theorem Listed.dequeue {r : System T M C R} (h : Listed s q) (ht : (s.pc t).blockedOn = some x)
    (hpc : pc.blockedOn = none) (hs : r.pc = s.pc) (hqx : ∀ u, u ∈ qx ↔ u ≠ t ∧ u ∈ q x)
    (hfx : r.fifo x = f) (hx : f.Holds next' qx) (hfifo : ∀ y, y ≠ x → r.fifo y = s.fifo y)
    (hnext : ∀ u, u ∉ q x → next' u = s.next u) :
    Listed ((r.setNext next').setPc t pc) (update q x qx) := by
  refine h.requeue (· = t) (hfx ▸ hx) hfifo (fun u _ => hnext u) (fun u hu => ?_) ?_
  · rw [pc_setPc_of_ne hu, hqx, and_iff_right hu]
    exact ⟨congrFun hs u, Iff.rfl⟩
  · rintro _ rfl y
    simp [pc_setPc_self, ht, hpc, hqx, eq_comm]

variable {v : Mutex T}

/-- A step that changes the mutex `m` and its queue for the thread `t`. -/
theorem Inv.changeMutex (h : Inv s q)
    (hl : Listed (((s.setMutex m v).setNext next').setPc t pc) (update q (.mutex m) qx))
    (hc : ∀ c m, pc ≠ .condUnlock c m)
    (hkeep : ∀ u, u ≠ t → (s.mutex m).owner = some u → (s.mutex m).control ≠ .other →
      v.owner = some u ∧ v.control ≠ .other) (hvalid : v.control = .other → qx = [])
    (hrec : v.control = .recursive → ∀ u, v.owner = some u → u ∉ qx) :
    Inv (((s.setMutex m v).setNext next').setPc t pc) (update q (.mutex m) qx) where
  toListed := hl
  owner := by
    intro u c m' hu
    obtain ⟨hut, hu⟩ := condUnlock_of_setPc hc hu
    have ho := h.owner u c m' hu
    show (update s.mutex m v m').owner = _ ∧ (update s.mutex m v m').control ≠ _
    by_cases hm : m' = m
    · rw [hm] at ho ⊢
      rw [update_self]
      exact hkeep u hut ho.1 ho.2
    · rw [update_of_ne hm]
      exact ho
  valid := by
    intro m' (hcontrol : (update s.mutex m v m').control = _)
    by_cases hm : m' = m
    · rw [hm, update_self] at hcontrol ⊢
      exact hvalid hcontrol
    · rw [update_of_ne hm] at hcontrol
      rw [update_of_ne fun heq => hm (Queue.mutex.inj heq)]
      exact h.valid m' hcontrol
  recursive := by
    intro m' (hcontrol : (update s.mutex m v m').control = _) u
      (hu : (update s.mutex m v m').owner = _)
    by_cases hm : m' = m
    · rw [hm, update_self] at hcontrol hu ⊢
      exact hrec hcontrol u hu
    · rw [update_of_ne hm] at hcontrol hu
      rw [update_of_ne fun heq => hm (Queue.mutex.inj heq)]
      exact h.recursive m' hcontrol u hu

/-- The mutex is changed but not its queue, by a thread that stays outside of all queues or in its
own one. -/
theorem Inv.setMutex (h : Inv s q) (hqueue : v.queue = (s.mutex m).queue)
    (hb : pc.blockedOn = (s.pc t).blockedOn) (hc : ∀ c m, pc ≠ .condUnlock c m)
    (hkeep : ∀ u, u ≠ t → (s.mutex m).owner = some u → (s.mutex m).control ≠ .other →
      v.owner = some u ∧ v.control ≠ .other) (hvalid : v.control = .other → q (.mutex m) = [])
    (hrec : v.control = .recursive → ∀ u, v.owner = some u → u ∉ q (.mutex m)) :
    Inv ((s.setMutex m v).setPc t pc) q := by
  rw [← update_eq_self (.mutex m) q]
  refine h.changeMutex ?_ hc hkeep hvalid hrec
  rw [update_eq_self]
  refine h.toListed.move ?_ rfl ?_ (fun u hu => pc_setPc_of_ne hu)
  · intro y
    by_cases hy : y = .mutex m
    · rw [hy]
      exact fifo_setMutex_self.trans hqueue
    · exact fifo_setMutex_of_ne hy
  · rw [pc_setPc_self]
    exact hb

/-- The mutex is entered by a thread that is in its queue or in none, and returns. -/
theorem Inv.entered {e' : Errno} {q' : List T} (h : Inv s q)
    (hent : Mutex.Entered s.next (s.mutex m) (q (.mutex m)) t v (some e) q')
    (ht : (s.pc t).blockedOn = none ∨ (s.pc t).blockedOn = some (.mutex m)) :
    ∃ q', Inv ((s.setMutex m v).setPc t (.done e')) q' ∧ ∀ c, q' (.cond c) = q (.cond c) := by
  -- a thread that is not in the queue changes only the mutex
  have hout : t ∉ q (.mutex m) → (s.pc t).blockedOn = none := by
    intro hnot
    refine ht.resolve_right fun hb => hnot ?_
    rw [h.mem]
    exact hb
  cases hent with
  | invalid hm =>
    have hnil := h.valid m hm
    have hb := hout (by rw [hnil]; exact not_mem_nil)
    exact ⟨q, h.setMutex rfl hb.symm nofun (fun _ _ ho hc => ⟨ho, hc⟩)
      (h.valid m) (h.recursive m), fun _ => rfl⟩
  | again hm ho =>
    have hb := hout (h.recursive m hm t ho)
    exact ⟨q, h.setMutex rfl hb.symm nofun (fun _ _ ho hc => ⟨ho, hc⟩)
      (h.valid m) (h.recursive m), fun _ => rfl⟩
  | free hm ho hq =>
    have hb := hout (by rw [hq]; exact not_mem_nil)
    refine ⟨q, h.setMutex rfl hb.symm nofun ?_ (h.valid m) ?_, fun _ => rfl⟩
    · intro u _ hu
      rw [ho] at hu
      cases hu
    · intro _ u _
      rw [hq]
      exact not_mem_nil
  | @head f _ hm ho hq hf =>
    have hnd := (h.holds (.mutex m)).nodup
    rw [hq, nodup_cons] at hnd
    have hb : (s.pc t).blockedOn = some (.mutex m) := by
      rw [← h.mem, hq]
      exact mem_cons_self
    refine ⟨update q (.mutex m) q', h.changeMutex ?_ nofun ?_ (fun hc => absurd hc hm) ?_,
      fun _ => update_of_ne (by simp) ..⟩
    · refine h.toListed.dequeue (r := s.setMutex m _) hb rfl rfl (fun u => ?_) fifo_setMutex_self hf
        (fun y hy => fifo_setMutex_of_ne hy) fun _ _ => rfl
      rw [hq, mem_cons]
      exact ⟨fun hu => ⟨fun heq => hnd.1 (heq ▸ hu), .inr hu⟩, fun hu => hu.2.resolve_left hu.1⟩
    · intro u _ hu
      rw [ho] at hu
      cases hu
    · intro _ u hu
      cases hu
      exact hnd.1

/-- A round of `sgx_thread_mutex_lock`: the first one, or a later one of a thread in the queue. -/
theorem Inv.round [Fintype T] {inCond : Bool} (h : Inv s q)
    (ht : (s.pc t).blockedOn = none ∨ (s.pc t).blockedOn = some (.mutex m))
    (hstep : s.round t m inCond = some s') :
    ∃ q', Inv s' q' ∧ ∀ c, q' (.cond c) = q (.cond c) := by
  obtain ⟨next', v, e, q', hlock, hout⟩ := Mutex.lock_spec (h.holds (.mutex m)) t
  rw [System.round, show (s.mutex m).lock s.next t = some (next', v, e) from hlock] at hstep
  cases hstep
  cases hout with
  | entered hent => exact h.entered hent ht
  | queued hb hq =>
    have hself : (s.pc t).blockedOn = some (.mutex m) := (h.mem t (.mutex m)).mp hq
    exact ⟨q, h.setMutex rfl hself.symm nofun (fun _ _ ho hc => ⟨ho, hc⟩)
      (h.valid m) (h.recursive m), fun _ => rfl⟩
  | @tail _ f hb hq hf hframe =>
    have hself : (s.pc t).blockedOn = none := by
      refine ht.resolve_right fun hb => hq ?_
      rw [h.mem]
      exact hb
    refine ⟨update q (.mutex m) (q (.mutex m) ++ [t]), h.changeMutex ?_ nofun
      (fun _ _ ho hc => ⟨ho, hc⟩) (fun hc => absurd hc hb.valid) ?_, fun _ => update_of_ne (by simp) ..⟩
    · exact h.toListed.enqueue hself rfl rfl fifo_setMutex_self hf
        (fun y hy => fifo_setMutex_of_ne hy) hframe
    · intro hrec u hu
      rw [mem_append, mem_singleton]
      rintro (hmem | heq)
      · exact h.recursive m hrec u hu hmem
      · rw [heq] at hu
        exact hb.other hrec hu

/-- `sgx_thread_mutex_unlock_lazy` changes a mutex only for its owner, and never its queue. -/
theorem Inv.unlockLazy {w : Option T} (h : Inv s q)
    (hout : Mutex.Unlocked (s.mutex m) (q (.mutex m)) t v e w)
    (hb : pc.blockedOn = (s.pc t).blockedOn) (hc : ∀ c m, pc ≠ .condUnlock c m) :
    Inv ((s.setMutex m v).setPc t pc) q := by
  have hnot : ∀ u, u ≠ t → (s.mutex m).owner = some t → (s.mutex m).owner ≠ some u := by
    intro u hu ho heq
    rw [ho] at heq
    exact hu (Option.some.inj heq).symm
  cases hout with
  | failed | inner =>
    exact h.setMutex rfl hb hc (fun _ _ ho hc => ⟨ho, hc⟩) (h.valid m) (h.recursive m)
  | last ho hr =>
    exact h.setMutex rfl hb hc (fun u hu hu' => absurd hu' (hnot u hu ho)) (h.valid m)
      nofun

/-! Condition variables. -/

/-- A thread enters the queue of a condition variable, with a mutex it owns. -/
theorem Inv.condWait [Fintype T] (h : Inv s q) (ht : (s.pc t).blockedOn = none)
    (howner : (s.mutex m).owner = some t ∧ (s.mutex m).control ≠ .other)
    (hstep : (Fifo.insertTail s.next (s.cond c) t).map (fun r =>
      ((s.setCond c r.2).setNext r.1).setPc t (.condUnlock c m)) = some s') :
    Inv s' (update q (.cond c) (q (.cond c) ++ [t])) := by
  obtain ⟨next', f, hinsert, hf, hframe⟩ :=
    Fifo.insertTail_spec (h.holds (.cond c)) (h.notMem ht (.cond c))
  rw [show Fifo.insertTail s.next (s.cond c) t = some (next', f) from hinsert] at hstep
  cases hstep
  refine ⟨?_, ?_, ?_, ?_⟩
  · exact h.toListed.enqueue ht rfl rfl fifo_setCond_self hf (fun y hy => fifo_setCond_of_ne hy)
      hframe
  · intro u c' m' hu
    by_cases hut : u = t
    · rw [hut, pc_setPc_self] at hu
      cases hu
      rw [hut]
      exact howner
    · rw [pc_setPc_of_ne hut] at hu
      exact h.owner u c' m' hu
  · intro m' hm'
    exact h.valid m' hm'
  · intro m' hm' u hu
    exact h.recursive m' hm' u hu

/-- The threads `ws` are taken out of the queue of a condition variable whose spinlock was free. -/
theorem Inv.wakeAll {rest : List T} (h : Inv s q) (hspin : s.SpinFree c)
    (hsplit : q (.cond c) = ws ++ rest) (hf : f.Holds s.next rest) :
    Inv ((s.setCond c f).wakeAll ws) (update q (.cond c) rest) := by
  have hnd := (h.holds (.cond c)).nodup
  rw [hsplit, nodup_append] at hnd
  have hwait : ∀ u ∈ ws, ∃ m, s.pc u = .condWait c m false := by
    intro u hu
    refine h.waits_of_mem hspin ?_
    rw [hsplit]
    exact mem_append_left rest hu
  have hpcs : ∀ u ∈ ws, ∃ m, ((s.setCond c f).wakeAll ws).pc u = .condWait c m true := by
    intro u hu
    obtain ⟨m, hm⟩ := hwait u hu
    exact ⟨m, (if_pos hu).trans (congrArg Pc.wake hm)⟩
  have hpco : ∀ u, u ∉ ws → ((s.setCond c f).wakeAll ws).pc u = s.pc u := fun u hu => if_neg hu
  have hx : ((s.setCond c f).fifo (.cond c)).Holds s.next rest := by
    rw [fifo_setCond_self]
    exact hf
  have hfifo : ∀ y, y ≠ .cond c → (s.setCond c f).fifo y = s.fifo y := fun y hy => fifo_setCond_of_ne hy
  refine h.keepMutex (h.toListed.requeue (· ∈ ws) hx hfifo (fun _ _ _ => rfl) ?_ ?_) rfl
    (fun m => update_of_ne (by simp) ..) ?_
  · intro u hu
    rw [hsplit, mem_append, or_iff_right hu]
    exact ⟨hpco u hu, Iff.rfl⟩
  · intro u hu y
    obtain ⟨m, hm⟩ := hwait u hu
    obtain ⟨m', hm'⟩ := hpcs u hu
    have hnot : u ∉ rest := fun hr => hnd.2.2 u hu u hr rfl
    simp [hm, hm', hnot, Pc.blockedOn, eq_comm]
  · intro u c' m' hu
    by_cases hmem : u ∈ ws
    · obtain ⟨m, hm⟩ := hpcs u hmem
      rw [hm] at hu
      cases hu
    · rw [hpco u hmem] at hu
      exact hu

/-! Reader-writer locks. -/

/-- A part of `rdlock` or `wrlock`, before or after a wait. -/
theorem Inv.rwLocked {l : RwLock T} (h : Inv s q)
    (hl : Listed (((s.setRwlock r l).setNext next').setPc t pc) (update q (.rwlock r mode) qx))
    (hc : ∀ c m, pc ≠ .condUnlock c m) :
    Inv (((s.setRwlock r l).setNext next').setPc t pc) (update q (.rwlock r mode) qx) := by
  exact h.keepMutex hl rfl (fun m => update_of_ne (by simp) ..)
    fun _ _ _ hu => (condUnlock_of_setPc hc hu).2

theorem Inv.rwLock (h : Inv s q) (ht : (s.pc t).blockedOn = none)
    (hstep : ((s.rwlock r).lock mode s.next t).map (s.rwLocked t r mode) = some s') :
    ∃ q', Inv s' q' ∧ ∀ c, q' (.cond c) = q (.cond c) := by
  have hnot := h.notMem ht (.rwlock r mode)
  obtain ⟨next', l, e, q', hlock, hout⟩ := RwLock.lock_spec (h.holds (.rwlock r mode)) hnot
  rw [hlock] at hstep
  cases hstep
  cases hout with
  | free hfree =>
    exact ⟨q, h.setRwlock (fun _ => RwLock.queue_take) ht.symm nofun,
      fun _ => rfl⟩
  | own hbusy ho =>
    exact ⟨q, h.setRwlock (fun _ => rfl) ht.symm nofun, fun _ => rfl⟩
  | @tail _ f hbusy hf hframe =>
    refine ⟨update q (.rwlock r mode) (q (.rwlock r mode) ++ [t]), h.rwLocked ?_
      nofun, fun _ => update_of_ne (by simp) ..⟩
    exact h.toListed.enqueue ht rfl rfl (fifo_setRwlock_self.trans RwLock.queue_setQueue_self) hf
      (fun y hy => fifo_setQueue (fun _ => rfl) hy) hframe

theorem Inv.rwAgain [Fintype T] (h : Inv s q) (hpc : s.pc t = .rwWait r mode)
    (hstep : ((s.rwlock r).lockAgain mode s.next t).map (s.rwLocked t r mode) = some s') :
    ∃ q', Inv s' q' ∧ ∀ c, q' (.cond c) = q (.cond c) := by
  have ht : (s.pc t).blockedOn = some (.rwlock r mode) := by
    rw [hpc]
    rfl
  have hmem : t ∈ q (.rwlock r mode) := (h.mem t _).mpr ht
  obtain ⟨next', l, e, q', hlock, hout⟩ := RwLock.lockAgain_spec (h.holds (.rwlock r mode)) hmem
  rw [hlock] at hstep
  cases hstep
  cases hout with
  | @free _ f hfree hf hframe =>
    refine ⟨update q (.rwlock r mode) ((q (.rwlock r mode)).erase t), h.rwLocked ?_
      nofun, fun _ => update_of_ne (by simp) ..⟩
    exact h.toListed.dequeue ht rfl rfl (fun u => (h.holds _).nodup.mem_erase_iff)
      (fifo_setRwlock_self.trans RwLock.queue_setQueue_self) hf
      (fun y hy => fifo_setQueue (fun _ => RwLock.queue_take) hy) hframe
  | busy hbusy =>
    exact ⟨q, h.setRwlock (fun _ => rfl) ht.symm nofun, fun _ => rfl⟩

/-! The parts that make and destroy objects. -/

theorem Inv.mutexInit (h : Inv s q) (ht : (s.pc t).blockedOn = none)
    (howner : (s.mutex m).owner = none) (hfirst : (s.mutex m).queue.first = none) :
    Inv ((s.setMutex m .init).setPc t (.done e)) q := by
  obtain ⟨hempty, hnil⟩ := (h.holds (.mutex m)).eq_empty hfirst
  refine h.setMutex hempty.symm ht.symm nofun ?_ nofun
    nofun
  intro u _ hu
  rw [howner] at hu
  cases hu

theorem Inv.mutexDestroy (h : Inv s q) (ht : (s.pc t).blockedOn = none) :
    Inv ((s.setMutex m (s.mutex m).destroy.1).setPc t (.done (s.mutex m).destroy.2)) q := by
  rw [Mutex.destroy]
  split_ifs with hbusy
  · exact h.setMutex rfl ht.symm nofun (fun _ _ ho hc => ⟨ho, hc⟩) (h.valid m)
      (h.recursive m)
  · obtain ⟨howner, hfirst⟩ := not_or.mp hbusy
    have hnil := ((h.holds (.mutex m)).eq_empty (not_not.mp hfirst)).2
    refine h.setMutex rfl ht.symm nofun ?_ (fun _ => hnil)
      nofun
    intro u _ hu
    rw [not_not.mp howner] at hu
    cases hu

/-! ### The result -/

/-- What a call does to the queues of the condition variables: threads come in at the end, a signal
takes the first one out, and a broadcast takes all out if there is memory for their list. -/
def queued (a : Action T M C R) (q : C → List T) : C → List T :=
  match a with
  | .condWait t c _ => Function.update q c (q c ++ [t])
  | .condSignal _ c => Function.update q c (q c).tail
  | .condBroadcast _ c malloc => if malloc then Function.update q c [] else q
  | _ => q

/-- **The step lemma.** -/
theorem Inv.step [Fintype T] {a : Action T M C R} (h : Inv s q) (hproper : Proper s a)
    (hstep : WaitQueues.step a s = some s') :
    ∃ q', Inv s' q' ∧ ∀ c, q' (.cond c) = queued a (fun c => q (.cond c)) c := by
  cases a <;> simp only [WaitQueues.step] at hstep
  -- inside of a call
  case round t =>
    split at hstep
    · rename_i m inCond hpc
      exact h.round (.inl (by rw [hpc]; rfl)) hstep
    · rename_i m inCond hpc
      exact h.round (.inr (by rw [hpc]; rfl)) hstep
    · cases hstep
  case condUnlock t =>
    split at hstep
    · rename_i c m hpc
      obtain ⟨v, e, w, hunlock, hout⟩ := Mutex.unlockLazy_spec (h.holds (.mutex m)) t
      rw [hunlock] at hstep
      cases hstep
      obtain ⟨ho, hc⟩ := h.owner t c m hpc
      -- the thread owns the mutex, so that it is unlocked
      have he : e = .ok := by
        cases hout with
        | failed he hf => exact hf.elim (fun heq => absurd heq hc) (fun hne => absurd ho hne)
        | inner | last => rfl
      rw [if_pos he]
      refine ⟨q, h.unlockLazy hout ?_ nofun, fun _ => rfl⟩
      rw [hpc]
      rfl
    · cases hstep
  case condCheck t =>
    split at hstep
    · rename_i c m woken hpc
      split_ifs at hstep with hspin
      rw [show Fifo.contains s.next (s.cond c) t = some (decide (t ∈ q (.cond c))) from
        Fifo.contains_of_holds (h.holds (.cond c))] at hstep
      cases hstep
      by_cases hmem : t ∈ q (.cond c)
      · rw [decide_eq_true hmem]
        exact ⟨q, h, fun _ => rfl⟩
      · rw [decide_eq_false hmem]
        refine ⟨q, h.goOn ?_ nofun, fun _ => rfl⟩
        -- it is not in the queue, so it has been woken
        rw [hpc]
        cases woken with
        | true => rfl
        | false =>
          refine absurd ?_ hmem
          rw [h.mem, hpc]
          rfl
    · cases hstep
  case rwAgain t =>
    split at hstep
    · rename_i r mode hpc
      exact h.rwAgain hpc hstep
    · cases hstep
  -- a call, by a thread that is in no queue
  all_goals rw [Option.ite_none_right_eq_some] at hstep
  all_goals obtain ⟨hdone, hstep⟩ := hstep
  case condDestroy t c =>
    cases hstep
    exact ⟨q, h.goOn (blockedOn_of_isDone hdone.1).symm nofun, fun _ => rfl⟩
  case condWait t c m =>
    exact ⟨_, h.condWait (blockedOn_of_isDone hdone.1) hproper hstep, update_cond⟩
  case condSignal t c =>
    obtain ⟨f, hsignal, hf⟩ := Cond.signal_spec (h.holds (.cond c))
    rw [show Cond.signal s.next (s.cond c) = some (f, (q (.cond c)).head?) from hsignal] at hstep
    cases hstep
    have hsplit : q (.cond c) = (q (.cond c)).head?.toList ++ (q (.cond c)).tail := by
      cases q (.cond c) with
      | nil | cons => rfl
    have hwake := h.wakeAll hdone.2 hsplit hf
    exact ⟨_, hwake.goOn (blockedOn_wakeAll (blockedOn_of_isDone hdone.1)).symm
      nofun, update_cond⟩
  case condBroadcast t c malloc =>
    obtain ⟨f, e, ws, hbroadcast, hout⟩ := Cond.broadcast_spec malloc (h.holds (.cond c))
    rw [show Cond.broadcast malloc s.next (s.cond c) = some (f, e, ws) from hbroadcast] at hstep
    cases hstep
    have ht := blockedOn_of_isDone hdone.1
    rcases hout with ⟨rfl, rfl, hf, -⟩ | ⟨rfl, rfl, rfl, -⟩
    · have hwake := h.wakeAll hdone.2 (append_nil _).symm hf
      exact ⟨_, hwake.goOn (blockedOn_wakeAll ht).symm nofun, update_cond⟩
    · have hwake := h.wakeAll hdone.2 (nil_append _).symm (h.holds (.cond c))
      rw [update_eq_self] at hwake
      exact ⟨q, hwake.goOn (blockedOn_wakeAll ht).symm nofun, fun _ => rfl⟩
  all_goals have ht := blockedOn_of_isDone hdone
  case mutexInit t m =>
    cases hstep
    exact ⟨q, h.mutexInit ht hproper.1 hproper.2, fun _ => rfl⟩
  case mutexDestroy t m =>
    cases hstep
    exact ⟨q, h.mutexDestroy ht, fun _ => rfl⟩
  case condInit t c =>
    cases hstep
    exact ⟨q, h.condInit ht hproper, fun _ => rfl⟩
  case rwlockInit t r =>
    cases hstep
    exact ⟨q, h.rwlockInit ht hproper.1 hproper.2, fun _ => rfl⟩
  case rwlockDestroy | mutexLock =>
    cases hstep
    exact ⟨q, h.goOn ht.symm nofun, fun _ => rfl⟩
  case mutexTrylock t m =>
    obtain ⟨v, e, q', henter, hout⟩ := Mutex.enter_spec (h.holds (.mutex m)) t
    rw [Mutex.trylock, show (s.mutex m).enter s.next t = some (v, e) from henter] at hstep
    cases hstep
    cases e with
    | some e => exact h.entered hout (.inl ht)
    | none =>
      cases hout with
      | busy hb =>
        exact ⟨q, h.setMutex rfl ht.symm nofun (fun _ _ ho hc => ⟨ho, hc⟩)
          (h.valid m) (h.recursive m), fun _ => rfl⟩
  case mutexUnlock t m =>
    obtain ⟨v, e, w, hunlock, hout⟩ := Mutex.unlockLazy_spec (h.holds (.mutex m)) t
    rw [hunlock] at hstep
    cases hstep
    exact ⟨q, h.unlockLazy hout ht.symm nofun, fun _ => rfl⟩
  case rwLock t r mode =>
    exact h.rwLock ht hstep
  case rwTrylock t r mode =>
    cases hstep
    refine ⟨q, h.setRwlock ?_ ht.symm nofun, fun _ => rfl⟩
    intro mode'
    rw [RwLock.trylock]
    split_ifs
    · exact RwLock.queue_take
    · rfl
  case rdunlock t r =>
    cases hstep
    exact ⟨q, h.setRwlock RwLock.queue_rdunlock ht.symm nofun, fun _ => rfl⟩
  case wrunlock t r malloc =>
    obtain ⟨x, hx, rfl⟩ := Option.map_eq_some_iff.mp hstep
    exact ⟨q, h.setRwlock (RwLock.queue_wrunlock hx) ht.symm nofun, fun _ => rfl⟩
  case rwUnlock t r malloc =>
    obtain ⟨x, hx, rfl⟩ := Option.map_eq_some_iff.mp hstep
    refine ⟨q, h.setRwlock ?_ ht.symm nofun, fun _ => rfl⟩
    rw [RwLock.unlock] at hx
    split_ifs at hx
    · exact RwLock.queue_wrunlock hx
    · cases hx
      exact RwLock.queue_rdunlock

theorem exists_inv_of_run [Fintype T] {control : M → Control} {next : Links T}
    {l : List (Action T M C R)}
    (hrun : run (only Proper WaitQueues.step) l (init control next) = some s) : ∃ q, Inv s q :=
  invariant_of_run (I := fun s => ∃ q, Inv s q)
    (fun _ _ _ ⟨_, h⟩ hstep =>
      have ⟨hproper, hstep⟩ := only_eq_some.mp hstep
      have ⟨q', h', _⟩ := h.step hproper hstep
      ⟨q', h'⟩) hrun ⟨_, inv_init control next⟩

/-- **The wait queues stay disjoint.**  If threads wait on condition variables only with mutexes
they own, and objects are not initialised while threads are in their queues, then in every run the
chain of every queue is a finite list without duplicates, of exactly the threads that are blocked on
its object; so a thread is in one queue at most. -/
theorem queues_disjoint [Fintype T] {control : M → Control} {next : Links T}
    {l : List (Action T M C R)}
    (hrun : run (only Proper WaitQueues.step) l (init control next) = some s) :
    ∃ q : Queue M C R → List T, (∀ x, (s.fifo x).Holds s.next (q x)) ∧
      (∀ t x, t ∈ q x ↔ (s.pc t).blockedOn = some x) ∧
      (∀ t x y, t ∈ q x → t ∈ q y → x = y) := by
  obtain ⟨q, h⟩ := exists_inv_of_run hrun
  refine ⟨q, h.holds, h.mem, ?_⟩
  intro t x y hx hy
  rw [h.mem] at hx hy
  rw [hx] at hy
  exact Option.some.inj hy

/-- One thread waits on the condition variable, another one for the mutex. -/
def waiting : List (Action Bool Unit Unit Unit) :=
  [.mutexLock false (), .round false, .mutexLock true (), .round true, .condWait false () (),
   .condUnlock false]

theorem queues_disjoint_waiting :
    ∃ s, run (only Proper WaitQueues.step) waiting (init (fun _ => .nonrecursive) fun _ => none) =
        some s ∧
      ∃ q : Queue Unit Unit Unit → List Bool, (∀ x, (s.fifo x).Holds s.next (q x)) ∧
        (∀ t x, t ∈ q x ↔ (s.pc t).blockedOn = some x) ∧
        (∀ t x y, t ∈ q x → t ∈ q y → x = y) := by
  obtain ⟨s, hs⟩ := Option.isSome_iff_exists.mp
    (by decide : (run (only Proper WaitQueues.step) waiting
      (init (fun _ => .nonrecursive) fun _ => none)).isSome = true)
  exact ⟨s, hs, queues_disjoint hs⟩

/-- The thread `true` waits on the condition variable without the mutex, and then locks it. -/
def unowned : List (Action Bool Unit Unit Unit) :=
  [.mutexLock false (), .round false, .condWait true () (), .condUnlock true]

/-- `sgx_thread_cond_wait` has returned `EPERM`, and the thread is still in the queue; the lock
puts it into the queue of the mutex as well. -/
theorem two_queues :
    (∃ s, run WaitQueues.step unowned (init (fun _ => .nonrecursive) fun _ => none) = some s ∧
      (s.cond ()).first = some true ∧ s.pc true = .done .eperm) ∧
    (∃ s, run WaitQueues.step (unowned ++ [.mutexLock true (), .round true])
        (init (fun _ => .nonrecursive) fun _ => none) = some s ∧
      (s.cond ()).first = some true ∧ (s.mutex ()).queue.first = some true) := by
  refine ⟨?_, ?_⟩
  · exact ⟨_, rfl, by decide, by decide⟩
  · exact ⟨_, rfl, by decide, by decide⟩

end Sethread.WaitQueues
