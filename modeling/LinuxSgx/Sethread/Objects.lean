/-
Mutexes, condition variables and reader-writer locks (`sethread_mutex.cpp`, `sethread_cond.cpp`,
`sethread_rwlock.cpp`).

An object is changed only while its spinlock is held.  The parts of the operations between two
such locks are functions here: they get the object, the links of the threads (`m_next`, one field
per thread for all queues) and the calling thread, and they return what the operation does next.

* `Mutex.lock`, `Mutex.trylock`, `Mutex.unlockLazy` — one round of the loop of
  `sgx_thread_mutex_lock`, `sgx_thread_mutex_trylock`, `sgx_thread_mutex_unlock_lazy`;
* `RwLock.rdlock`, `RwLock.rdlockAgain`, … — the parts of the reader-writer lock;
* `Cond.signal`, `Cond.broadcast` — the condition variable, which is only a queue;
* `Mutex.Entered`, `Mutex.Locked` — the outcomes when the queue is a list.

`none` is the result of a part that follows a null pointer or runs in a circle.
-/
import LinuxSgx.Lib.Fifo


namespace Sethread

inductive Errno where
  | ok
  | einval
  | eperm
  | ebusy
  | enomem
  | edeadlk
  deriving DecidableEq

/-- `m_next` of the threads. -/
abbrev Links (T : Type) := T → Option T

variable {T : Type}

/-! ### Mutexes -/

/-- `m_control`; a mutex that was destroyed or never initialised has another value. -/
inductive Control where
  | nonrecursive
  | recursive
  | other
  deriving DecidableEq

/-- `sgx_thread_mutex_t`. -/
structure Mutex (T : Type) where
  refcount : ℕ
  control : Control
  owner : Option T
  queue : Fifo T
  deriving DecidableEq

namespace Mutex

variable [DecidableEq T]

/-- `sgx_thread_mutex_init`. -/
def init : Mutex T := ⟨0, .nonrecursive, none, .empty⟩

/-- `sgx_thread_mutex_destroy`. -/
def destroy (m : Mutex T) : Mutex T × Errno :=
  if m.owner ≠ none ∨ m.queue.first ≠ none then (m, .ebusy)
  else ({ m with control := .other, refcount := 0 }, .ok)

/-- The part that `sgx_thread_mutex_lock` and `sgx_thread_mutex_trylock` share; `none` if the
mutex cannot be had now. -/
def enter (next : Links T) (m : Mutex T) (self : T) : Option (Mutex T × Option Errno) :=
  if m.control = .other then some (m, some .einval)
  else if m.control = .recursive ∧ m.owner = some self then
    some ({ m with refcount := m.refcount + 1 }, some .ok)
  else if m.owner = none ∧ (m.queue.first = some self ∨ m.queue.first = none) then
    if m.queue.first = some self then
      (Fifo.removeHead next m.queue).map fun f =>
        ({ m with queue := f, owner := some self, refcount := m.refcount + 1 }, some .ok)
    else some ({ m with owner := some self, refcount := m.refcount + 1 }, some .ok)
  else some (m, none)

/-- One round of `sgx_thread_mutex_lock`; without a result the thread goes to wait. -/
def lock [Fintype T] (next : Links T) (m : Mutex T) (self : T) :
    Option (Links T × Mutex T × Option Errno) := do
  match ← m.enter next self with
  | (m, some e) => return (next, m, some e)
  | (m, none) =>
    if ← Fifo.contains next m.queue self then return (next, m, none)
    else
      let (next, f) ← Fifo.insertTail next m.queue self
      return (next, { m with queue := f }, none)

/-- `sgx_thread_mutex_trylock`. -/
def trylock (next : Links T) (m : Mutex T) (self : T) : Option (Mutex T × Errno) :=
  (m.enter next self).map fun r => (r.1, r.2.getD .ebusy)

/-- `sgx_thread_mutex_unlock_lazy`, with the thread that has to be woken. -/
def unlockLazy (m : Mutex T) (self : T) : Mutex T × Errno × Option T :=
  if m.control = .other then (m, .einval, none)
  else if m.owner = none then (m, .eperm, none)
  else if m.owner ≠ some self then (m, .eperm, none)
  else if m.refcount - 1 = 0 then
    ({ m with refcount := m.refcount - 1, owner := none }, .ok, m.queue.first)
  else ({ m with refcount := m.refcount - 1 }, .ok, none)

/-! What the parts do if the queue is the list `q`. -/

/-- The mutex cannot be had now: it is owned, or another thread comes first. -/
structure Busy (m : Mutex T) (q : List T) (t : T) : Prop where
  valid : m.control ≠ .other
  other : m.control = .recursive → m.owner ≠ some t
  taken : m.owner ≠ none ∨ q ≠ [] ∧ q.head? ≠ some t

/-- The outcomes of `enter`, with the new queue. -/
inductive Entered (next : Links T) (m : Mutex T) (q : List T) (self : T) :
    Mutex T → Option Errno → List T → Prop
  | invalid (hm : m.control = .other) : Entered next m q self m (some .einval) q
  | again (hm : m.control = .recursive) (ho : m.owner = some self) :
      Entered next m q self { m with refcount := m.refcount + 1 } (some .ok) q
  | free (hm : m.control ≠ .other) (ho : m.owner = none) (hq : q = []) :
      Entered next m q self { m with owner := some self, refcount := m.refcount + 1 } (some .ok) q
  | head {f : Fifo T} {q' : List T} (hm : m.control ≠ .other) (ho : m.owner = none)
      (hq : q = self :: q') (hf : f.Holds next q') :
      Entered next m q self { m with queue := f, owner := some self, refcount := m.refcount + 1 }
        (some .ok) q'
  | busy (hb : Busy m q self) : Entered next m q self m none q

variable {m : Mutex T}

theorem enter_spec {next : Links T} {q : List T} (h : m.queue.Holds next q) (self : T) :
    ∃ m' r q', m.enter next self = some (m', r) ∧ Entered next m q self m' r q' := by
  have hfirst := h.first_eq
  by_cases hm : m.control = .other
  · exact ⟨m, _, q, if_pos hm, .invalid hm⟩
  by_cases hown : m.control = .recursive ∧ m.owner = some self
  · refine ⟨_, _, q, ?_, .again hown.1 hown.2⟩
    rw [enter, if_neg hm, if_pos hown]
  by_cases ho : m.owner = none
  · cases q with
    | nil =>
      refine ⟨_, _, [], ?_, .free hm ho rfl⟩
      rw [enter, if_neg hm, if_neg hown, hfirst]
      rw [if_pos ⟨ho, .inr rfl⟩]
      rfl
    | cons a q =>
      by_cases ha : a = self
      · obtain ⟨f, hf, hq⟩ := Fifo.removeHead_spec h
        refine ⟨_, _, q, ?_, .head hm ho (by rw [ha]) hq⟩
        have hhead : m.queue.first = some self := by
          rw [hfirst, ha]
          rfl
        rw [enter, if_neg hm, if_neg hown, if_pos ⟨ho, .inl hhead⟩, if_pos hhead, hf]
        rfl
      · have hhead : (a :: q).head? ≠ some self := fun heq => ha (Option.some.inj heq)
        refine ⟨m, none, a :: q, ?_, .busy ⟨hm, fun hr hs => hown ⟨hr, hs⟩,
          .inr ⟨List.cons_ne_nil a q, hhead⟩⟩⟩
        have hneg : ¬ (m.owner = none ∧ (m.queue.first = some self ∨ m.queue.first = none)) := by
          rw [hfirst]
          rintro ⟨-, heq | heq⟩
          · exact hhead heq
          · cases heq
        rw [enter, if_neg hm, if_neg hown, if_neg hneg]
  · refine ⟨m, none, q, ?_, .busy ⟨hm, fun hr hs => hown ⟨hr, hs⟩, .inl ho⟩⟩
    rw [enter, if_neg hm, if_neg hown, if_neg (fun hc => ho hc.1)]

/-- The outcomes of a round of `lock`: the mutex is entered, or the thread stands in the queue. -/
inductive Locked (next : Links T) (m : Mutex T) (q : List T) (self : T) :
    Links T → Mutex T → Option Errno → List T → Prop
  | entered {m' : Mutex T} {e : Errno} {q' : List T} (h : Entered next m q self m' (some e) q') :
      Locked next m q self next m' (some e) q'
  | queued (hb : Busy m q self) (hq : self ∈ q) :
      Locked next m q self next m none q
  | tail {next' : Links T} {f : Fifo T} (hb : Busy m q self) (hq : self ∉ q)
      (hf : f.Holds next' (q ++ [self])) (hframe : ∀ t, t ≠ self → t ∉ q → next' t = next t) :
      Locked next m q self next' { m with queue := f } none (q ++ [self])

theorem lock_spec [Fintype T] {next : Links T} {q : List T} (h : m.queue.Holds next q) (self : T) :
    ∃ next' m' r q', m.lock next self = some (next', m', r) ∧
      Locked next m q self next' m' r q' := by
  obtain ⟨m', r, q', henter, hout⟩ := enter_spec h self
  rw [lock, henter]
  cases r with
  | some e => exact ⟨next, m', some e, q', rfl, .entered hout⟩
  | none =>
    cases hout with
    | busy hb =>
      show ∃ next' m' r q', (Fifo.contains next m.queue self).bind _ = some (next', m', r) ∧
        Locked next m q self next' m' r q'
      rw [Fifo.contains_of_holds h]
      by_cases hq : self ∈ q
      · rw [decide_eq_true hq]
        exact ⟨next, m, none, q, rfl, .queued hb hq⟩
      · rw [decide_eq_false hq]
        obtain ⟨next', f, hf, hq', hframe⟩ := Fifo.insertTail_spec h hq
        refine ⟨next', { m with queue := f }, none, q ++ [self], ?_, .tail hb hq hq' hframe⟩
        rw [hf]
        rfl

/-- The outcomes of `unlockLazy`, with the thread to be woken. -/
inductive Unlocked (m : Mutex T) (q : List T) (self : T) : Mutex T → Errno → Option T → Prop
  | failed {e : Errno} (he : e ≠ .ok) (h : m.control = .other ∨ m.owner ≠ some self) :
      Unlocked m q self m e none
  | inner (ho : m.owner = some self) (hr : m.refcount - 1 ≠ 0) :
      Unlocked m q self { m with refcount := m.refcount - 1 } .ok none
  | last (ho : m.owner = some self) (hr : m.refcount - 1 = 0) :
      Unlocked m q self { m with refcount := 0, owner := none } .ok q.head?

theorem unlockLazy_spec {next : Links T} {q : List T} (h : m.queue.Holds next q) (self : T) :
    ∃ m' e w, m.unlockLazy self = (m', e, w) ∧ Unlocked m q self m' e w := by
  rw [unlockLazy]
  by_cases hm : m.control = .other
  · rw [if_pos hm]
    exact ⟨_, _, _, rfl, .failed nofun (.inl hm)⟩
  rw [if_neg hm]
  by_cases hnone : m.owner = none
  · rw [if_pos hnone]
    refine ⟨_, _, _, rfl, .failed nofun (.inr ?_)⟩
    rw [hnone]
    exact (Option.some_ne_none self).symm
  rw [if_neg hnone]
  by_cases ho : m.owner = some self
  · rw [if_neg (not_not.mpr ho)]
    by_cases hr : m.refcount - 1 = 0
    · rw [if_pos hr, hr, h.first_eq]
      exact ⟨_, _, _, rfl, .last ho hr⟩
    · rw [if_neg hr]
      exact ⟨_, _, _, rfl, .inner ho hr⟩
  · rw [if_pos ho]
    exact ⟨_, _, _, rfl, .failed nofun (.inr ho)⟩

end Mutex

/-! ### Reader-writer locks -/

/-- `sgx_thread_rwlock_t`. -/
structure RwLock (T : Type) where
  readerCount : UInt32
  writersWaiting : UInt32
  owner : Option T
  readerQueue : Fifo T
  writerQueue : Fifo T
  deriving DecidableEq

/-- What a lock is wanted for. -/
inductive Mode where
  | read
  | write
  deriving DecidableEq

namespace RwLock

/-- `sgx_thread_rwlock_init`. -/
def init : RwLock T := ⟨0, 0, none, .empty, .empty⟩

/-- `sgx_thread_rwlock_destroy`. -/
def destroy (l : RwLock T) : Errno :=
  if l.owner ≠ none ∨ l.readerCount ≠ 0 ∨ l.writersWaiting ≠ 0 ∨ l.readerQueue.first ≠ none ∨
    l.writerQueue.first ≠ none then .ebusy
  else .ok

/-- The lock can be had: by a reader if no writer owns it, by a writer if no reader has it either. -/
def Free (l : RwLock T) : Mode → Prop
  | .read => l.owner = none
  | .write => l.owner = none ∧ l.readerCount = 0

instance (l : RwLock T) (mode : Mode) : Decidable (l.Free mode) := by
  cases mode <;> unfold Free <;> infer_instance

def take (l : RwLock T) (self : T) : Mode → RwLock T
  | .read => { l with readerCount := l.readerCount + 1 }
  | .write => { l with owner := some self }

def queue (l : RwLock T) : Mode → Fifo T
  | .read => l.readerQueue
  | .write => l.writerQueue

def setQueue (l : RwLock T) (f : Fifo T) : Mode → RwLock T
  | .read => { l with readerQueue := f }
  | .write => { l with writerQueue := f }

section Model

variable [DecidableEq T]

/-- The part of `rdlock` and `wrlock` up to the first wait. -/
def lock (mode : Mode) (next : Links T) (l : RwLock T) (self : T) :
    Option (Links T × RwLock T × Option Errno) :=
  if l.Free mode then some (next, l.take self mode, some .ok)
  else if l.owner = some self then some (next, l, some .edeadlk)
  else (Fifo.insertTail next (l.queue mode) self).map fun r => (r.1, l.setQueue r.2 mode, none)

/-- The part of `rdlock` and `wrlock` after a wait. -/
def lockAgain [Fintype T] (mode : Mode) (next : Links T) (l : RwLock T) (self : T) :
    Option (Links T × RwLock T × Option Errno) :=
  if l.Free mode then
    (Fifo.remove next (l.queue mode) self).map fun r =>
      (r.1, (l.take self mode).setQueue r.2 mode, some .ok)
  else some (next, l, none)

def trylock (mode : Mode) (l : RwLock T) (self : T) : RwLock T × Errno :=
  if l.Free mode then (l.take self mode, .ok) else (l, .ebusy)

/-- `sgx_thread_rwlock_rdlock` up to its wait. -/
def rdlock (next : Links T) (l : RwLock T) (self : T) : Option (Links T × RwLock T × Option Errno) :=
  l.lock .read next self

/-- `sgx_thread_rwlock_wrlock` up to its wait. -/
def wrlock (next : Links T) (l : RwLock T) (self : T) : Option (Links T × RwLock T × Option Errno) :=
  l.lock .write next self

/-- `sgx_thread_rwlock_tryrdlock`. -/
def tryrdlock (l : RwLock T) (self : T) : RwLock T × Errno := l.trylock .read self

/-- `sgx_thread_rwlock_trywrlock`. -/
def trywrlock (l : RwLock T) (self : T) : RwLock T × Errno := l.trylock .write self

/-- `sgx_thread_rwlock_rdunlock`, with the thread that has to be woken. -/
def rdunlock (l : RwLock T) : RwLock T × Errno × List T :=
  if l.readerCount = 0 then (l, .eperm, [])
  else if l.readerCount - 1 = 0 then
    ({ l with readerCount := l.readerCount - 1 }, .ok, l.writerQueue.first.toList)
  else ({ l with readerCount := l.readerCount - 1 }, .ok, [])

/-- `sgx_thread_rwlock_wrunlock`, with the threads that have to be woken.  The list of the readers
is put into new memory after the lock was given free. -/
def wrunlock [Fintype T] (malloc : Bool) (next : Links T) (l : RwLock T) (self : T) :
    Option (RwLock T × Errno × List T) :=
  if l.owner ≠ some self then some (l, .eperm, [])
  else
    let l := { l with owner := none }
    if l.readerQueue.first ≠ none then
      (Fifo.elements next l.readerQueue).map fun ws =>
        if malloc then (l, .ok, ws) else (l, .enomem, [])
    else some (l, .ok, l.writerQueue.first.toList)

/-- `sgx_thread_rwlock_unlock`. -/
def unlock [Fintype T] (malloc : Bool) (next : Links T) (l : RwLock T) (self : T) :
    Option (RwLock T × Errno × List T) :=
  if l.owner = some self then l.wrunlock malloc next self else some l.rdunlock

end Model

/-! What the parts do if the queues are lists. -/

variable {next : Links T} {l : RwLock T} {q : List T} {mode : Mode} {self : T} {f : Fifo T}

@[simp] theorem queue_setQueue_self : (l.setQueue f mode).queue mode = f := by
  cases mode with
  | read | write => rfl

theorem queue_setQueue_of_ne {mode' : Mode} (h : mode' ≠ mode) :
    (l.setQueue f mode).queue mode' = l.queue mode' := by
  cases mode with
  | read =>
    cases mode' with
    | read => exact absurd rfl h
    | write => rfl
  | write =>
    cases mode' with
    | read => rfl
    | write => exact absurd rfl h

@[simp] theorem owner_setQueue : (l.setQueue f mode).owner = l.owner := by
  cases mode with
  | read | write => rfl

@[simp] theorem readerCount_setQueue : (l.setQueue f mode).readerCount = l.readerCount := by
  cases mode with
  | read | write => rfl

@[simp] theorem queue_take {mode' : Mode} : (l.take self mode).queue mode' = l.queue mode' := by
  cases mode with
  | read | write => cases mode' <;> rfl

/-- The outcomes of `lock` for a thread that is not in the queue. -/
inductive Locked (mode : Mode) (next : Links T) (l : RwLock T) (q : List T) (self : T) :
    Links T → RwLock T → Option Errno → List T → Prop
  | free (h : l.Free mode) : Locked mode next l q self next (l.take self mode) (some .ok) q
  | own (h : ¬ l.Free mode) (ho : l.owner = some self) :
      Locked mode next l q self next l (some .edeadlk) q
  | tail {next' : Links T} {f : Fifo T} (h : ¬ l.Free mode) (hf : f.Holds next' (q ++ [self]))
      (hframe : ∀ t, t ≠ self → t ∉ q → next' t = next t) :
      Locked mode next l q self next' (l.setQueue f mode) none (q ++ [self])

theorem lock_spec [DecidableEq T] (h : (l.queue mode).Holds next q) (hself : self ∉ q) :
    ∃ next' l' r q', l.lock mode next self = some (next', l', r) ∧
      Locked mode next l q self next' l' r q' := by
  rw [lock]
  by_cases hfree : l.Free mode
  · rw [if_pos hfree]
    exact ⟨_, _, _, _, rfl, .free hfree⟩
  rw [if_neg hfree]
  by_cases ho : l.owner = some self
  · rw [if_pos ho]
    exact ⟨_, _, _, _, rfl, .own hfree ho⟩
  · obtain ⟨next', f, hf, hq, hframe⟩ := Fifo.insertTail_spec h hself
    rw [if_neg ho, hf]
    exact ⟨_, _, _, _, rfl, .tail hfree hq hframe⟩

/-- The outcomes of `lockAgain` for a thread of the queue. -/
inductive LockedAgain [DecidableEq T] (mode : Mode) (next : Links T) (l : RwLock T) (q : List T) (self : T) :
    Links T → RwLock T → Option Errno → List T → Prop
  | free {next' : Links T} {f : Fifo T} (h : l.Free mode) (hf : f.Holds next' (q.erase self))
      (hframe : ∀ t, t ∉ q → next' t = next t) :
      LockedAgain mode next l q self next' ((l.take self mode).setQueue f mode) (some .ok)
        (q.erase self)
  | busy (h : ¬ l.Free mode) : LockedAgain mode next l q self next l none q

theorem lockAgain_spec [DecidableEq T] [Fintype T] (h : (l.queue mode).Holds next q)
    (hself : self ∈ q) :
    ∃ next' l' r q', l.lockAgain mode next self = some (next', l', r) ∧
      LockedAgain mode next l q self next' l' r q' := by
  rw [lockAgain]
  by_cases hfree : l.Free mode
  · obtain ⟨next', f, hf, hq, hframe⟩ := Fifo.remove_spec h hself
    rw [if_pos hfree, hf]
    exact ⟨_, _, _, _, rfl, .free hfree hq hframe⟩
  · rw [if_neg hfree]
    exact ⟨_, _, _, _, rfl, .busy hfree⟩

theorem rdunlock_spec (h : l.writerQueue.Holds next q) (hcount : l.readerCount ≠ 0) :
    l.rdunlock = ({ l with readerCount := l.readerCount - 1 }, .ok,
      if l.readerCount - 1 = 0 then q.head?.toList else []) := by
  rw [rdunlock, if_neg hcount, h.first_eq]
  split
  · rfl
  · rfl

/-- The readers are woken, or else the first writer; without memory nobody is. -/
theorem wrunlock_spec [DecidableEq T] [Fintype T] {malloc : Bool} {r w : List T}
    (hr : l.readerQueue.Holds next r)
    (hw : l.writerQueue.Holds next w) (ho : l.owner = some self) :
    l.wrunlock malloc next self = some ({ l with owner := none },
      if r ≠ [] ∧ malloc = false then (.enomem, []) else (.ok, if r = [] then w.head?.toList else r)) := by
  rw [wrunlock, if_neg (not_not.mpr ho)]
  by_cases hnil : r = []
  · have hfirst : l.readerQueue.first = none := hr.first_eq_none.mpr hnil
    rw [if_neg (not_not.mpr hfirst), if_neg (fun hc => hc.1 hnil), if_pos hnil]
    rw [hw.first_eq]
  · have hfirst : l.readerQueue.first ≠ none := fun heq => hnil (hr.first_eq_none.mp heq)
    rw [if_pos hfirst]
    rw [Fifo.elements_of_holds hr, Option.map_some, if_neg hnil]
    cases malloc with
    | true => rw [if_pos rfl, if_neg (fun hc => nomatch hc.2)]
    | false => rw [if_neg Bool.false_ne_true, if_pos ⟨hnil, rfl⟩]

theorem queue_rdunlock (mode : Mode) : l.rdunlock.1.queue mode = l.queue mode := by
  rw [rdunlock]
  split_ifs
  · rfl
  · cases mode <;> rfl
  · cases mode <;> rfl

theorem queue_wrunlock [DecidableEq T] [Fintype T] {l' : RwLock T} {malloc : Bool}
    {r : Errno × List T}
    (h : l.wrunlock malloc next self = some (l', r)) (mode : Mode) :
    l'.queue mode = l.queue mode := by
  rw [wrunlock] at h
  dsimp only at h
  split_ifs at h with ho hfirst hmalloc
  · cases h
    rfl
  · obtain ⟨ws, -, heq⟩ := Option.map_eq_some_iff.mp h
    cases heq
    cases mode <;> rfl
  · obtain ⟨ws, -, heq⟩ := Option.map_eq_some_iff.mp h
    cases heq
    cases mode <;> rfl
  · cases h
    cases mode <;> rfl

end RwLock

/-! ### Condition variables -/

namespace Cond

/-- `sgx_thread_cond_destroy`. -/
def destroy (f : Fifo T) : Errno := if f.first ≠ none then .ebusy else .ok

/-- `sgx_thread_cond_signal`, with the thread that has to be woken. -/
def signal (next : Links T) (f : Fifo T) : Option (Fifo T × Option T) :=
  match f.first with
  | none => some (f, none)
  | some w => (Fifo.removeHead next f).map fun f => (f, some w)

/-- `sgx_thread_cond_broadcast`, with the threads that have to be woken.  The queue is left alone if
there is no memory for their list. -/
def broadcast [Fintype T] (malloc : Bool) (next : Links T) (f : Fifo T) :
    Option (Fifo T × Errno × List T) := do
  let l ← Fifo.elements next f
  if l.length = 0 then return (f, .ok, [])
  else if malloc = false then return (f, .enomem, [])
  else
    let (f, ws) ← Fifo.drain next f
    return (f, .ok, ws)

variable {next : Links T} {f : Fifo T} {q : List T}

theorem signal_spec (h : f.Holds next q) :
    ∃ f', signal next f = some (f', q.head?) ∧ f'.Holds next q.tail := by
  rw [signal, h.first_eq]
  cases q with
  | nil => exact ⟨f, rfl, h⟩
  | cons w q =>
    obtain ⟨f', hf', hq⟩ := Fifo.removeHead_spec h
    refine ⟨f', ?_, hq⟩
    rw [hf']
    rfl

/-- All threads are taken out, or none. -/
theorem broadcast_spec [Fintype T] (malloc : Bool) (h : f.Holds next q) :
    ∃ f' e ws, broadcast malloc next f = some (f', e, ws) ∧
      (malloc = true ∧ ws = q ∧ f'.Holds next [] ∧ e = .ok ∨
        malloc = false ∧ ws = [] ∧ f' = f ∧ (e = .ok → q = [])) := by
  rw [broadcast, Fifo.elements_of_holds h]
  by_cases hnil : q.length = 0
  · have hq := List.length_eq_zero_iff.mp hnil
    refine ⟨f, .ok, [], ?_, ?_⟩
    rotate_left
    · cases malloc
      · exact .inr ⟨rfl, rfl, rfl, fun _ => hq⟩
      · exact .inl ⟨rfl, hq.symm, hq ▸ h, rfl⟩
    show (if q.length = 0 then _ else _) = _
    rw [if_pos hnil]
    rfl
  by_cases hm : malloc = false
  · refine ⟨f, .enomem, [], ?_, .inr ⟨hm, rfl, rfl, nofun⟩⟩
    show (if q.length = 0 then _ else if malloc = false then _ else _) = _
    rw [if_neg hnil, if_pos hm]
    rfl
  · obtain ⟨f', hf', hq⟩ := Fifo.drain_spec h
    refine ⟨f', .ok, q, ?_, .inl ⟨Bool.not_eq_false _ ▸ hm, rfl, hq, rfl⟩⟩
    show (if q.length = 0 then _ else if malloc = false then _ else (Fifo.drain next f).bind _) = _
    rw [if_neg hnil, if_neg hm, hf']
    rfl

end Cond

end Sethread
