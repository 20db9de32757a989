/-
Who has the trusted threads (`tcs.cpp`, `enclave.cpp`, `enclave_thread.cpp`).

Untrusted threads enter an enclave and leave it, create threads on its behalf, start and exit, in any
order, and a thread of the runtime fills the pool.  An untrusted thread has an identifier as
long as it runs; the kernel may give it to another one afterwards.

* `State`, `Action`, `step` — the pool with all threads of the process;
* `Inv` — where the trusted threads are and to whom those with a reference belong;
* **`pool_ownership`** — each trusted thread is in one place, and while it is referenced it is
  neither collected nor given to another thread, provided that (`Proper`) an identifier is not used
  again while it is bound, the attributes of a new thread can be set, and the calls that start and
  end the enclave do not overlap with others on the same trusted thread;
* **`lost_trust_thread`** — a new thread whose identifier is still in the list.

The mutex of the pool makes what a thread does there one step, up to a wait for the thread that
fills the pool; that one, and calls that return, do not take the mutex.
-/
import LinuxSgx.Lib.Runs
import LinuxSgx.Urts.ThreadPool

open Runs Function List Option

namespace Urts.Threads


/-- `ECMD_INIT_ENCLAVE`, `ECMD_UNINIT_ENCLAVE` and the others. -/
inductive Cmd where
  | init
  | uninit
  | other
  deriving DecidableEq

/-- What a thread waits for while it holds the mutex of the pool. -/
inductive Request where
  | thread
  | freeThread
  deriving DecidableEq

/-- How `CEnclave::ecall` ends after it got a thread. -/
inductive Return where
  | done
  | pthreadExit
  /-- the pages of another thread could not be trimmed before `ECMD_UNINIT_ENCLAVE` -/
  | trimFailed
  deriving DecidableEq

/-- The pool and the threads of the process.  `creating` are the trusted threads that
`pthread_create_ocall` has taken, `starting` those that `pthread_create_routine` has not bound yet.
The last three fields are not in the code: all trusted threads, all threads there have been, and the
thread that a trusted thread was last given to. -/
structure State (U T X : Type) where
  pool : TrustThreadPool T X
  waiting : Option (U × Request)
  creating : List X
  starting : List (U × X)
  calls : U → List X
  live : List U
  crashed : Bool
  objects : List X
  started : List U
  holder : X → Option U

inductive Action (U T X : Type) where
  | addThread (x : X) (isUnallocated dynamic : Bool)
  | start (u : U)
  | exit (u : U)
  | acquire (u : U) (cmd : Cmd) (seen : List T)
  | acquireFree (u : U) (seen : List T)
  | resume (seen : List T)
  | fill (made : Bool)
  | ret (u : U) (r : Return)
  | attrFailed (x : X)
  | createFailed (x : X)
  | created (x : X) (u : U)
  | bindPthread (u : U) (x : X)
  | reset

section Model

variable {U T X : Type} [DecidableEq U] [DecidableEq T] [DecidableEq X]

namespace State

def init (p : TrustThreadPool T X) : State U T X :=
  ⟨p, none, [], [], fun _ => [], [], false, [], [], fun _ => none⟩

/-- The end of `acquire_thread`. -/
def deliver (s : State U T X) (u : U) : Option X × TrustThreadPool T X → State U T X
  | (none, p) => { s with pool := p }
  | (some x, p) =>
    { s with
      pool := p.increaseRef x
      calls := Function.update s.calls u (x :: s.calls u)
      holder := Function.update s.holder x (some u) }

/-- `acquire_thread` asks for new threads through the utility thread, which it does not look at. -/
def refill (s : State U T X) : State U T X :=
  { s with crashed := s.crashed || (s.pool.needToNewThread && s.pool.utilityThread.isNone) }

/-- The end of `acquire_free_thread`. -/
def handOut (s : State U T X) : Option X × TrustThreadPool T X → State U T X
  | (none, p) => { s with pool := p }
  | (some x, p) =>
    { s with
      pool := p.resetRef x
      creating := x :: s.creating
      holder := Function.update s.holder x none }

/-- Nothing was free: with a utility thread the caller waits, otherwise it goes on. -/
def wait (s : State U T X) (u : U) (request : Request) (p : TrustThreadPool T X) : State U T X :=
  { s with pool := { p with needToWaitForNewThread := true }, waiting := some (u, request) }

/-- `acquire_thread` until it returns or waits. -/
def acquireThread (s : State U T X) (threadId : U → T) (policy : Policy) (u : U) (cmd : Cmd)
    (seen : List T) : State U T X :=
  let once := s.pool.acquireThreadOnce policy seen (threadId u)
  match cmd, s.pool.utilityThread with
  | .init, some x => s.deliver u (some x, s.pool)
  | .uninit, some x =>
    let p := ((s.pool.unbindThread (threadId u)).bindThread (threadId u) x).1
    s.deliver u (some x, { p with utilityThread := none })
  | .init, none => s.deliver u once
  | .uninit, none => s.deliver u once
  | .other, utility =>
    if once.1.isNone ∧ utility.isSome then s.wait u .thread once.2 else (s.deliver u once).refill

/-- `acquire_free_thread` until it returns or waits. -/
def acquireFreeThread (s : State U T X) (policy : Policy) (u : U) (seen : List T) : State U T X :=
  let once := s.pool.acquireFreeThreadOnce policy seen
  if once.1.isNone ∧ s.pool.utilityThread.isSome then s.wait u .freeThread once.2
  else s.handOut once

/-- The rest of the two functions after the wait. -/
def resume (s : State U T X) (threadId : U → T) (policy : Policy) (seen : List T) :
    Option (State U T X) :=
  if s.pool.needToWaitForNewThread then none
  else
    match s.waiting with
    | none => none
    | some (u, .thread) =>
      some ((deliver { s with waiting := none } u
        (s.pool.acquireThreadOnce policy seen (threadId u))).refill)
    | some (_, .freeThread) =>
      some (handOut { s with waiting := none } (s.pool.acquireFreeThreadOnce policy seen))

/-- A thread that can take the mutex of the pool. -/
def Ready (s : State U T X) (u : U) : Prop :=
  u ∈ s.live ∧ s.waiting = none ∧ u ∉ s.starting.map Prod.fst

instance (s : State U T X) (u : U) : Decidable (s.Ready u) := by
  unfold Ready
  infer_instance

/-- The kernel gives the identifier of no running thread. -/
def CanStart (s : State U T X) (threadId : U → T) (u : U) : Prop :=
  u ∉ s.started ∧ ∀ v ∈ s.live, threadId v ≠ threadId u

instance (s : State U T X) (threadId : U → T) (u : U) : Decidable (s.CanStart threadId u) := by
  unfold CanStart
  infer_instance

def launch (s : State U T X) (u : U) : State U T X :=
  { s with live := u :: s.live, started := u :: s.started }

end State

open State

def step (threadId : U → T) (policy : Policy) :
    Action U T X → State U T X → Option (State U T X)
  | a, s =>
    if s.crashed then none
    else
      match a with
      | .addThread x isUnallocated dynamic =>
        if x ∉ s.objects ∧ s.waiting = none then
          some { s with
            pool := s.pool.addThread x isUnallocated dynamic
            objects := x :: s.objects }
        else none
      | .start u => if s.CanStart threadId u then some (s.launch u) else none
      | .exit u =>
        if u ∈ s.live ∧ s.waiting.map Prod.fst ≠ some u ∧ u ∉ s.starting.map Prod.fst then
          some { s with
            live := s.live.filter (· ≠ u)
            calls := Function.update s.calls u [] }
        else none
      | .acquire u cmd seen =>
        if s.Ready u then some (s.acquireThread threadId policy u cmd seen) else none
      | .acquireFree u seen =>
        if s.Ready u then some (s.acquireFreeThread policy u seen) else none
      | .resume seen => s.resume threadId policy seen
      | .fill made => some { s with pool := s.pool.fillTcsMiniPool made }
      | .ret u r =>
        match s.calls u with
        | [] => none
        | x :: rest =>
          if s.waiting.map Prod.fst = some u then none
          else
            some { s with
              pool := match r with
                | .done => s.pool.decreaseRef x
                | .pthreadExit => s.pool.resetRef x
                | .trimFailed => s.pool
              calls := Function.update s.calls u rest }
      | .attrFailed x =>
        if x ∈ s.creating then some { s with creating := s.creating.erase x } else none
      | .createFailed x =>
        if x ∈ s.creating then
          some { s with
            pool := s.pool.addToFreeThreadVector x
            creating := s.creating.erase x }
        else none
      | .created x u =>
        if x ∈ s.creating ∧ s.CanStart threadId u then
          some { s.launch u with
            creating := s.creating.erase x
            starting := (u, x) :: s.starting }
        else none
      | .bindPthread u x =>
        -- the result of bind_pthread is not looked at
        if (u, x) ∈ s.starting ∧ s.waiting = none then
          some { s with
            pool := (s.pool.bindThread (threadId u) x).1
            starting := s.starting.erase (u, x)
            holder := Function.update s.holder x (some u) }
        else none
      | .reset => if s.waiting = none then some { s with pool := s.pool.reset } else none

/-- Where the trusted threads are. -/
def State.places (s : State U T X) : List X :=
  s.pool.freeThreadVector ++ s.pool.threadList.values ++ s.pool.unallocatedThreads
    ++ s.pool.utilityThread.toList ++ s.creating ++ s.starting.map Prod.snd

/-- What keeps the ownership: an identifier is not given to a new thread while a referenced trusted
thread is bound to it, nor to a thread of the enclave while any is; the attributes of threads can be
set; the first and the last call do not overlap with another one on their trusted threads, and the
pool is reset when no bound thread is referenced. -/
def Proper (threadId : U → T) (s : State U T X) : Action U T X → Prop
  | .start u => ∀ x ∈ s.pool.getBoundThread (threadId u), s.pool.reference x ≤ 0
  | .created _ u => s.pool.getBoundThread (threadId u) = none
  | .attrFailed _ => False
  | .acquire _ .init _ => ∀ x ∈ s.pool.utilityThread, s.pool.reference x ≤ 0
  | .acquire u .uninit _ =>
    ∀ x ∈ s.pool.utilityThread, s.pool.reference x ≤ 0 ∧
      ∀ y ∈ s.pool.getBoundThread (threadId u), s.pool.reference y ≤ 0
  | .reset => ∀ x ∈ s.pool.threadList.values, s.pool.reference x ≤ 0
  | _ => True

instance (threadId : U → T) (s : State U T X) (a : Action U T X) :
    Decidable (Proper threadId s a) := by
  unfold Proper
  split <;> infer_instance

end Model

/-! ### The invariant -/

section Invariant

variable {U T X : Type} {threadId : U → T} {policy : Policy} {s s' : State U T X} {l l' : List (T × X)}
  {x : X} {u : U} {t : T}

/-- The places with the list of threads as `l`. -/
def State.placesWith (s : State U T X) (l : List (T × X)) : List X :=
  s.pool.freeThreadVector ++ l.map Prod.snd ++ s.pool.unallocatedThreads
    ++ s.pool.utilityThread.toList ++ s.creating ++ s.starting.map Prod.snd

theorem places_eq (h : s.pool.threadList.Rep l) : s.places = s.placesWith l := by
  rw [State.places, State.placesWith, NodeList.values_eq h]

theorem ne_of_pos {r : X → ℤ} (hx : r x ≤ 0) : ∀ y, 0 < r y → y ≠ x := by
  rintro y hy rfl
  omega

variable [DecidableEq X]

theorem count_placesWith :
    (s.placesWith l).count x
      = s.pool.freeThreadVector.count x + (l.map Prod.snd).count x
        + s.pool.unallocatedThreads.count x + s.pool.utilityThread.toList.count x
        + s.creating.count x + (s.starting.map Prod.snd).count x := by
  simp only [State.placesWith, count_append]

/-- `l` is the list of the threads.  A trusted thread with a reference is in the list or the utility
thread; in the list it belongs to a thread with the identifier, and no other such thread is running.
-/
structure Inv (threadId : U → T) (s : State U T X) (l : List (T × X)) : Prop where
  rep : s.pool.threadList.Rep l
  places : ∀ x, (s.placesWith l).count x = s.objects.count x
  nodup : s.objects.Nodup
  keys : (l.map Prod.fst).Nodup
  idle : ∀ x, 0 < s.pool.reference x → x ∈ l.map Prod.snd ∨ s.pool.utilityThread = some x
  owner : ∀ t x, (t, x) ∈ l → 0 < s.pool.reference x →
    ∃ u, s.holder x = some u ∧ threadId u = t ∧ ∀ v ∈ s.live, threadId v = t → v = u
  ids : ∀ u ∈ s.live, ∀ v ∈ s.live, threadId u = threadId v → u = v
  unbound : ∀ e ∈ s.starting, e.1 ∈ s.live ∧ threadId e.1 ∉ l.map Prod.fst
  starters : (s.starting.map Prod.fst).Nodup
  waiter : ∀ e ∈ s.waiting, e.1 ∈ s.live ∧ e.1 ∉ s.starting.map Prod.fst

theorem pos_of_reset {r : X → ℤ} {y : X} (h : 0 < update r x 0 y) : 0 < r y := by
  by_cases hyx : y = x
  · rw [hyx, update_self] at h
    exact absurd h (Int.lt_irrefl 0)
  · rwa [update_of_ne hyx] at h

/-- What a step leaves alone: the trusted threads with a reference. -/
def Kept (s s' : State U T X) (l' : List (T × X)) : Prop :=
  ∀ x, 0 < s.pool.reference x →
    s'.holder x = s.holder x ∧ (x ∈ l'.map Prod.snd ∨ s'.pool.utilityThread = some x)

namespace Inv

theorem init {p : TrustThreadPool T X} (hfree : p.freeThreadVector = [])
    (hunallocated : p.unallocatedThreads = []) (hlist : p.threadList.Rep [])
    (hutility : p.utilityThread = none) (href : ∀ x, p.reference x = 0) :
    Inv threadId (State.init p) [] where
  rep := hlist
  places x := by
    rw [count_placesWith]
    simp [State.init, hfree, hunallocated, hutility]
  nodup := nodup_nil
  keys := nodup_nil
  idle x hx := absurd (href x) hx.ne'
  owner _ _ h := nomatch h
  ids _ h := nomatch h
  unbound _ h := nomatch h
  starters := nodup_nil
  waiter _ h := nomatch h

/-- A trusted thread is in one place at most. -/
theorem count_le (h : Inv threadId s l) (x : X) : (s.placesWith l).count x ≤ 1 := by
  rw [h.places]
  exact nodup_iff_count_le_one.mp h.nodup x

theorem values_nodup (h : Inv threadId s l) : (l.map Prod.snd).Nodup := by
  refine nodup_iff_count_le_one.mpr fun x => ?_
  have hle := h.count_le x
  rw [count_placesWith] at hle
  omega

theorem utility_ne (h : Inv threadId s l) : ∀ x ∈ l.map Prod.snd, s.pool.utilityThread ≠ some x := by
  intro x hx hutility
  have hle := h.count_le x
  rw [count_placesWith, hutility] at hle
  have hcount := count_pos_iff.mpr hx
  simp only [toList_some, count_singleton_self] at hle
  omega

/-- What is free has no reference. -/
theorem free_le (h : Inv threadId s l) (hx : x ∈ s.pool.freeThreadVector) :
    x ∉ l.map Prod.snd ∧ s.pool.utilityThread ≠ some x ∧ s.pool.reference x ≤ 0 := by
  have hle := h.count_le x
  rw [count_placesWith] at hle
  have hcount := count_pos_iff.mpr hx
  have hlist : x ∉ l.map Prod.snd := by
    intro hmem
    have := count_pos_iff.mpr hmem
    omega
  have hutility : s.pool.utilityThread ≠ some x := by
    intro hutility
    rw [hutility] at hle
    simp only [toList_some, count_singleton_self] at hle
    omega
  refine ⟨hlist, hutility, Int.not_lt.mp fun hpos => ?_⟩
  rcases h.idle x hpos with hmem | hmem
  · exact hlist hmem
  · exact hutility hmem

/-- Steps that leave the list alone and refer to no more threads. -/
theorem mono (h : Inv threadId s l) (hlist : s'.pool.threadList = s.pool.threadList)
    (hplaces : ∀ x, (s'.placesWith l).count x = s'.objects.count x) (hnodup : s'.objects.Nodup)
    (href : ∀ x, 0 < s'.pool.reference x → 0 < s.pool.reference x ∧ s'.holder x = s.holder x ∧
      (s.pool.utilityThread = some x → s'.pool.utilityThread = some x))
    (hlive : ∀ v ∈ s'.live, v ∈ s.live)
    (hstarting : ∀ e ∈ s'.starting, e ∈ s.starting ∧ e.1 ∈ s'.live)
    (hstarters : (s'.starting.map Prod.fst).Nodup)
    (hwaiter : ∀ e ∈ s'.waiting, e.1 ∈ s'.live ∧ e.1 ∉ s'.starting.map Prod.fst) :
    Inv threadId s' l where
  rep := hlist ▸ h.rep
  places := hplaces
  nodup := hnodup
  keys := h.keys
  idle x hx := (h.idle x (href x hx).1).imp_right (href x hx).2.2
  owner t x hmem hx := by
    obtain ⟨u, hu, hid, honly⟩ := h.owner t x hmem (href x hx).1
    exact ⟨u, (href x hx).2.1.trans hu, hid, fun v hv => honly v (hlive v hv)⟩
  ids u hu v hv := h.ids u (hlive u hu) v (hlive v hv)
  unbound e he := ⟨(hstarting e he).2, (h.unbound e (hstarting e he).1).2⟩
  starters := hstarters
  waiter := hwaiter

/-! ### The pool takes and binds threads -/

variable {q : TrustThreadPool T X}

theorem collected (h : Inv threadId s l) (hq : TrustThreadPool.Collected s.pool q l l') :
    Inv threadId { s with pool := q } l' ∧ Kept s { s with pool := q } l' := by
  have hkept : ∀ x, 0 < s.pool.reference x → x ∈ l.map Prod.snd → x ∈ l'.map Prod.snd := by
    intro x hx hmem
    obtain ⟨e, he, rfl⟩ := List.mem_map.mp hmem
    exact List.mem_map.mpr ⟨e, hq.kept e he hx.ne', rfl⟩
  have hsub := hq.sublist.map Prod.fst
  refine ⟨⟨hq.rep, fun x => ?_, h.nodup, h.keys.sublist hsub, fun x hx => ?_, fun t x hmem hx => ?_,
    h.ids, fun e he => ?_, h.starters, h.waiter⟩, fun x hx => ⟨rfl, ?_⟩⟩
  · have hcount := hq.perm.count_eq x
    have hall := h.places x
    rw [count_placesWith] at hall ⊢
    rw [count_append, count_append] at hcount
    dsimp only
    rw [hq.unallocated, hq.utility]
    omega
  · have hx : 0 < s.pool.reference x := hq.reference ▸ hx
    rw [hq.utility]
    exact (h.idle x hx).imp_left (hkept x hx)
  · have hx : 0 < s.pool.reference x := hq.reference ▸ hx
    exact h.owner t x (hq.sublist.mem hmem) hx
  · exact ⟨(h.unbound e he).1, fun hmem => (h.unbound e he).2 (hsub.mem hmem)⟩
  · show x ∈ _ ∨ q.utilityThread = _
    rw [hq.utility]
    exact (h.idle x hx).imp_left (hkept x hx)

/-- A free thread is bound to the running thread `u`. -/
theorem bindFree {free : List X} {n : NodeList T X} (h : Inv threadId s l)
    (hfree : s.pool.freeThreadVector = x :: free) (hu : u ∈ s.live)
    (hstarting : u ∉ s.starting.map Prod.fst) (hkey : threadId u ∉ l.map Prod.fst)
    (hn : n.Rep (NodeList.insertSecond (threadId u, x) l)) :
    let s' := { s with
      pool := { s.pool with freeThreadVector := free, threadList := n }
      holder := update s.holder x (some u) }
    Inv threadId s' (NodeList.insertSecond (threadId u, x) l) ∧
      Kept s s' (NodeList.insertSecond (threadId u, x) l) := by
  obtain ⟨hlist, hutility, hle⟩ := h.free_le (hfree ▸ mem_cons_self : x ∈ _)
  have hperm := NodeList.insertSecond_perm (e := (threadId u, x)) (l := l)
  have hvalues := hperm.map Prod.snd
  have hfst := hperm.map Prod.fst
  have hne := ne_of_pos hle
  have hmem : ∀ y, y ∈ l.map Prod.snd →
      y ∈ (NodeList.insertSecond (threadId u, x) l).map Prod.snd :=
    fun y hy => hvalues.mem_iff.mpr (mem_cons_of_mem _ hy)
  refine ⟨⟨hn, fun y => ?_, h.nodup, ?_, fun y hy => (h.idle y hy).imp_left (hmem y),
    fun t y hty hy => ?_, h.ids, fun e he => ⟨(h.unbound e he).1, ?_⟩, h.starters, h.waiter⟩,
    fun y hy => ⟨update_of_ne (hne y hy) .., (h.idle y hy).imp_left (hmem y)⟩⟩
  · have hall := h.places y
    have hcount := hvalues.count_eq y
    rw [count_placesWith] at hall ⊢
    rw [hfree, count_cons] at hall
    rw [map_cons, count_cons] at hcount
    dsimp only at hcount ⊢
    omega
  · rw [hfst.nodup_iff, map_cons, nodup_cons]
    exact ⟨hkey, h.keys⟩
  · rcases NodeList.mem_insertSecond.mp hty with heq | hty
    · exact absurd (congrArg Prod.snd heq) (hne y hy)
    · obtain ⟨w, hw, hid, honly⟩ := h.owner t y hty hy
      exact ⟨w, (update_of_ne (hne y hy) ..).trans hw, hid, honly⟩
  · intro hmem
    rcases mem_cons.mp (hfst.mem_iff.mp hmem) with hid | hmem
    · -- both are running, so that they are one thread, which is not in its routine any more
      have heq := h.ids e.1 (h.unbound e he).1 u hu hid
      exact hstarting (heq ▸ List.mem_map.mpr ⟨e, he, rfl⟩)
    · exact (h.unbound e he).2 hmem

/-- The thread bound to `u` is given to it. -/
theorem deliverBound [DecidableEq U] (h : Inv threadId s l) (hu : u ∈ s.live)
    (hx : (threadId u, x) ∈ l) :
    Inv threadId (s.deliver u (some x, s.pool)) l ∧ Kept s (s.deliver u (some x, s.pool)) l := by
  have hlist : x ∈ l.map Prod.snd := List.mem_map.mpr ⟨_, hx, rfl⟩
  refine ⟨{ h with idle := fun y hy => ?_, owner := fun t y hty hy => ?_ }, fun y hy => ⟨?_, h.idle y hy⟩⟩
  · by_cases hyx : y = x
    · exact .inl (hyx ▸ hlist)
    · exact h.idle y (lt_of_lt_of_eq hy (update_of_ne hyx ..))
  · by_cases hyx : y = x
    · subst hyx
      have heq := inj_on_of_nodup_map h.values_nodup hty hx rfl
      have ht : t = threadId u := congrArg Prod.fst heq
      exact ⟨u, update_self .., ht.symm, fun v hv hid => h.ids v hv u hu (hid.trans ht)⟩
    · obtain ⟨w, hw, hid, honly⟩ := h.owner t y hty (lt_of_lt_of_eq hy (update_of_ne hyx ..))
      exact ⟨w, (update_of_ne hyx ..).trans hw, hid, honly⟩
  · by_cases hyx : y = x
    · subst hyx
      obtain ⟨w, hw, -, honly⟩ := h.owner _ y hx hy
      rw [hw, ← honly u hu rfl]
      exact update_self ..
    · exact update_of_ne hyx ..

/-- A free thread is bound to `u` and given to it. -/
theorem deliverFree [DecidableEq U] {free : List X} {n : NodeList T X} (h : Inv threadId s l)
    (hfree : s.pool.freeThreadVector = x :: free) (hu : u ∈ s.live)
    (hstarting : u ∉ s.starting.map Prod.fst) (hkey : threadId u ∉ l.map Prod.fst)
    (hn : n.Rep (NodeList.insertSecond (threadId u, x) l)) :
    let s' := s.deliver u (some x, { s.pool with freeThreadVector := free, threadList := n })
    Inv threadId s' (NodeList.insertSecond (threadId u, x) l) ∧
      Kept s s' (NodeList.insertSecond (threadId u, x) l) := by
  obtain ⟨hbound, hkept⟩ := h.bindFree hfree hu hstarting hkey hn
  have hmem : (threadId u, x) ∈ NodeList.insertSecond (threadId u, x) l :=
    NodeList.mem_insertSecond.mpr (.inl rfl)
  obtain ⟨hdeliver, hkept'⟩ := hbound.deliverBound hu hmem
  -- the holder is written twice, with the same value
  have hidem : update (update s.holder x (some u)) x (some u)
      = update s.holder x (some u) := update_idem ..
  rw [State.deliver, hidem] at hdeliver hkept'
  refine ⟨hdeliver, fun y hy => ?_⟩
  have hfirst := hkept y hy
  have hsecond := hkept' y hy
  exact ⟨hsecond.1.trans hfirst.1, hsecond.2⟩

variable {r : Option X × TrustThreadPool T X}

/-- The outcome of `_acquire_thread` for the running thread `u`. -/
theorem acquired [DecidableEq U] (h : Inv threadId s l) (hu : u ∈ s.live)
    (hstarting : u ∉ s.starting.map Prod.fst)
    (hr : TrustThreadPool.Acquired s.pool l (threadId u) r l') :
    Inv threadId (s.deliver u r) l' ∧ Kept s (s.deliver u r) l' := by
  cases hr with
  | bound hx => exact h.deliverBound hu hx
  | none hq => exact h.collected hq
  | @taken q l' x free n hq hfree hkey hn =>
    obtain ⟨hinv, hkept⟩ := h.collected hq
    have hkey' : threadId u ∉ l'.map Prod.fst := fun hmem => hkey ((hq.sublist.map _).mem hmem)
    obtain ⟨hinv', hkept'⟩ := hinv.deliverFree hfree hu hstarting hkey' hn
    refine ⟨hinv', fun y hy => hkept' y ?_⟩
    rw [hq.reference]
    exact hy

/-- The utility thread, which has no reference, is given to `u` and stays where it is. -/
theorem deliverUtility [DecidableEq U] (h : Inv threadId s l)
    (hutility : s.pool.utilityThread = some x)
    (hx : s.pool.reference x ≤ 0) :
    Inv threadId (s.deliver u (some x, s.pool)) l ∧ Kept s (s.deliver u (some x, s.pool)) l := by
  have hlist : x ∉ l.map Prod.snd := fun hmem => h.utility_ne x hmem hutility
  refine ⟨{ h with idle := fun y hy => ?_, owner := fun t y hty hy => ?_ }, fun y hy => ⟨?_, h.idle y hy⟩⟩
  · by_cases hyx : y = x
    · exact .inr (hyx ▸ hutility)
    · exact h.idle y (lt_of_lt_of_eq hy (update_of_ne hyx ..))
  · have hyx : y ≠ x := by
      rintro rfl
      exact hlist (List.mem_map.mpr ⟨_, hty, rfl⟩)
    obtain ⟨w, hw, hid, honly⟩ := h.owner t y hty (lt_of_lt_of_eq hy (update_of_ne hyx ..))
    exact ⟨w, (update_of_ne hyx ..).trans hw, hid, honly⟩
  · exact update_of_ne (ne_of_pos hx y hy) ..

/-- The thread bound to `t`, if there is one, has no reference and becomes free. -/
theorem unbindThread [DecidableEq T] (h : Inv threadId s l)
    (hbound : ∀ y ∈ s.pool.getBoundThread t, s.pool.reference y ≤ 0) :
    let s' := { s with pool := s.pool.unbindThread t }
    ∃ l', Inv threadId s' l' ∧ Kept s s' l' ∧ t ∉ l'.map Prod.fst ∧
      s'.pool.utilityThread = s.pool.utilityThread ∧
      ∀ y ∉ l.map Prod.snd, s'.pool.reference y = s.pool.reference y := by
  intro s'
  obtain ⟨hvalue, hrep⟩ := NodeList.unbind_spec (k := t) h.rep
  rw [← NodeList.findValue_eq h.rep] at hvalue
  generalize hr : s.pool.threadList.unbind t = r at hvalue hrep
  obtain ⟨n, o⟩ := r
  cases o with
  | none =>
    have hs' : s' = { s with pool := { s.pool with threadList := n } } := by
      show { s with pool := s.pool.unbindThread t } = _
      rw [TrustThreadPool.unbindThread, hr]
    have ht := (NodeList.findValue_eq_none h.rep).mp hvalue.symm
    have hsame : l.eraseP (fun e => e.1 = t) = l := by
      refine eraseP_of_forall_not fun e he heq => ht ?_
      exact List.mem_map.mpr ⟨e, he, of_decide_eq_true heq⟩
    rw [hsame] at hrep
    rw [hs']
    exact ⟨l, { h with rep := hrep }, fun y hy => ⟨rfl, h.idle y hy⟩, ht, rfl, fun _ _ => rfl⟩
  | some y =>
    have hs' : s' = { s with pool := (TrustThreadPool.resetRef { s.pool with threadList := n } y)
        |>.addToFreeThreadVector y } := by
      show { s with pool := s.pool.unbindThread t } = _
      rw [TrustThreadPool.unbindThread, hr]
    have hy : (t, y) ∈ l := NodeList.mem_of_findValue h.rep hvalue.symm
    have hle := hbound y hvalue.symm
    have hperm := NodeList.perm_eraseP h.keys hy
    have hkeys := (hperm.map Prod.fst).nodup_iff.mp h.keys
    rw [map_cons, nodup_cons] at hkeys
    generalize l.eraseP (fun e => decide (e.1 = t)) = l' at hperm hkeys hrep
    -- a thread with a reference is another one than `y`
    have hne := ne_of_pos hle
    have hplace : ∀ z, 0 < s.pool.reference z →
        z ∈ l'.map Prod.snd ∨ s.pool.utilityThread = some z := by
      intro z hz
      refine (h.idle z hz).imp_left fun hmem => ?_
      rcases mem_cons.mp ((hperm.map Prod.snd).mem_iff.mp hmem) with heq | hmem
      · exact absurd heq (hne z hz)
      · exact hmem
    rw [hs']
    refine ⟨l', ⟨hrep, fun z => ?_, h.nodup, hkeys.2, fun z hz => hplace z (pos_of_reset hz),
      fun t' z hz hpos => ?_, h.ids, fun e he => ⟨(h.unbound e he).1, fun hmem => ?_⟩, h.starters, h.waiter⟩,
      fun z hz => ⟨rfl, hplace z hz⟩, hkeys.1, rfl, fun z hz => ?_⟩
    · have hall := h.places z
      have hcount := (hperm.map Prod.snd).count_eq z
      rw [count_placesWith] at hall ⊢
      rw [map_cons, count_cons] at hcount
      show (y :: s.pool.freeThreadVector).count z + _ + s.pool.unallocatedThreads.count z
        + s.pool.utilityThread.toList.count z + _ + _ = _
      rw [count_cons]
      dsimp only at hcount ⊢
      omega
    · exact h.owner t' z (hperm.mem_iff.mpr (mem_cons_of_mem _ hz)) (pos_of_reset hpos)
    · refine (h.unbound e he).2 ((hperm.map Prod.fst).mem_iff.mpr ?_)
      exact mem_cons_of_mem _ hmem
    · refine update_of_ne ?_ ..
      rintro rfl
      exact hz (List.mem_map.mpr ⟨_, hy, rfl⟩)

/-- `acquire_thread` for `ECMD_UNINIT_ENCLAVE`: the utility thread takes the place of the thread
that was bound. -/
theorem uninit [DecidableEq U] [DecidableEq T] (h : Inv threadId s l) (hu : u ∈ s.live)
    (hstarting : u ∉ s.starting.map Prod.fst)
    (hutility : s.pool.utilityThread = some x) (hx : s.pool.reference x ≤ 0)
    (hbound : ∀ y ∈ s.pool.getBoundThread (threadId u), s.pool.reference y ≤ 0) :
    let p := ((s.pool.unbindThread (threadId u)).bindThread (threadId u) x).1
    let s' := s.deliver u (some x, { p with utilityThread := none })
    ∃ l', Inv threadId s' l' ∧ Kept s s' l' := by
  obtain ⟨l', hinv, hkept, hkey, hutility', href⟩ := h.unbindThread hbound
  have hx' := href x fun hmem => h.utility_ne x hmem hutility
  rw [hutility] at hutility'
  generalize s.pool.unbindThread (threadId u) = p at hinv hkept hutility' hx' ⊢
  have hbind := NodeList.bind_spec (k := threadId u) (v := x) hinv.rep
  rw [if_neg hkey] at hbind
  have hpos := ne_of_pos (hx'.trans_le hx)
  -- seen as a free thread, the utility thread is bound like any other one
  have hfree : Inv threadId { s with pool :=
      { p with utilityThread := none, freeThreadVector := x :: p.freeThreadVector } } l' := by
    refine hinv.mono rfl (fun y => ?_) h.nodup (fun y hy => ⟨hy, rfl, fun hsome => ?_⟩)
      (fun _ hv => hv) (fun e he => ⟨he, (h.unbound e he).1⟩) h.starters h.waiter
    · have hall := hinv.places y
      rw [count_placesWith] at hall ⊢
      dsimp only at hall ⊢
      rw [hutility', toList_some, count_singleton] at hall
      rw [count_cons, toList_none, count_nil]
      omega
    · exact absurd (Option.some.inj (hsome.symm.trans hutility')) (hpos y hy)
  obtain ⟨hinv', hkept'⟩ := hfree.deliverFree rfl hu hstarting hkey hbind.2
  refine ⟨_, hinv', fun y hy => ?_⟩
  obtain ⟨-, hplace⟩ := hkept y hy
  have hyx := ne_of_pos hx y hy
  refine ⟨update_of_ne hyx .., .inl ?_⟩
  rcases hplace with hmem | hsome
  · exact ((NodeList.insertSecond_perm.map Prod.snd).mem_iff).mpr (mem_cons_of_mem _ hmem)
  · exact absurd (Option.some.inj (hutility'.symm.trans hsome)).symm hyx

/-- The outcome of `_acquire_free_thread`. -/
theorem taken (h : Inv threadId s l) (hr : TrustThreadPool.Taken s.pool l r l') :
    Inv threadId (s.handOut r) l' ∧ Kept s (s.handOut r) l' := by
  cases hr with
  | none hq => exact h.collected hq
  | @some q l' x free hq hfree =>
    obtain ⟨hinv, hkept⟩ := h.collected hq
    obtain ⟨hlist, hutility, hle⟩ := hinv.free_le (hfree ▸ mem_cons_self : x ∈ _)
    have hne := ne_of_pos hle
    constructor
    · refine hinv.mono rfl (fun y => ?_) h.nodup (fun y hy => ⟨pos_of_reset hy, ?_, id⟩)
        (fun _ hv => hv) (fun e he => ⟨he, (h.unbound e he).1⟩) h.starters h.waiter
      · have hall := hinv.places y
        rw [count_placesWith] at hall ⊢
        dsimp only at hall
        rw [hfree, count_cons] at hall
        show free.count y + _ + q.unallocatedThreads.count y + q.utilityThread.toList.count y
          + (x :: s.creating).count y + _ = _
        rw [count_cons]
        dsimp only [State.handOut]
        omega
      · exact update_of_ne (hne y (pos_of_reset hy)) ..
    · intro y hy
      have hy' : 0 < q.reference y := by
        rw [hq.reference]
        exact hy
      exact ⟨update_of_ne (hne y hy') .., (hkept y hy).2⟩

theorem refill (h : Inv threadId s l) : Inv threadId s.refill l :=
  { h with }

/-- Nothing was free, and the thread waits. -/
theorem wait {request : Request} (h : Inv threadId s l) (hu : u ∈ s.live)
    (hstarting : u ∉ s.starting.map Prod.fst) (hq : TrustThreadPool.Collected s.pool q l l') :
    Inv threadId (s.wait u request q) l' ∧ Kept s (s.wait u request q) l' := by
  obtain ⟨h, hkept⟩ := h.collected hq
  refine ⟨{ h with waiter := ?_ }, hkept⟩
  intro e he
  cases he
  exact ⟨hu, hstarting⟩

variable {seen : List T}

theorem acquireThread [DecidableEq U] [DecidableEq T] {cmd : Cmd} (h : Inv threadId s l)
    (hready : s.Ready u)
    (hproper : Proper threadId s (.acquire u cmd seen)) :
    ∃ l', Inv threadId (s.acquireThread threadId policy u cmd seen) l' ∧
      Kept s (s.acquireThread threadId policy u cmd seen) l' := by
  obtain ⟨hu, -, hstarting⟩ := hready
  obtain ⟨l', honce⟩ := TrustThreadPool.acquireThreadOnce_spec (t := threadId u) policy seen h.rep
    h.utility_ne
  have hdeliver := h.acquired hu hstarting honce
  rw [State.acquireThread.eq_def]
  dsimp only
  split
  · next x hutility => exact ⟨l, h.deliverUtility hutility (hproper x hutility)⟩
  · next x hutility =>
    exact h.uninit hu hstarting hutility (hproper x hutility).1 (hproper x hutility).2
  · exact ⟨l', hdeliver⟩
  · exact ⟨l', hdeliver⟩
  · generalize s.pool.acquireThreadOnce policy seen (threadId u) = r at honce hdeliver ⊢
    split
    · next hnone =>
      cases honce with
      | bound | taken => cases hnone.1
      | none hq => exact ⟨l', h.wait hu hstarting hq⟩
    · exact ⟨l', hdeliver.1.refill, hdeliver.2⟩

theorem acquireFreeThread [DecidableEq T] (h : Inv threadId s l) (hready : s.Ready u) :
    ∃ l', Inv threadId (s.acquireFreeThread policy u seen) l' ∧
      Kept s (s.acquireFreeThread policy u seen) l' := by
  obtain ⟨hu, -, hstarting⟩ := hready
  obtain ⟨l', honce⟩ := TrustThreadPool.acquireFreeThreadOnce_spec policy seen h.rep
  have htaken := h.taken honce
  rw [State.acquireFreeThread]
  generalize s.pool.acquireFreeThreadOnce policy seen = r at honce htaken ⊢
  split
  · next hnone =>
    cases honce with
    | none hq => exact ⟨l', h.wait hu hstarting hq⟩
    | some hq => cases hnone.1
  · exact ⟨l', htaken⟩

theorem resume [DecidableEq U] [DecidableEq T] (h : Inv threadId s l)
    (hstep : s.resume threadId policy seen = some s') :
    ∃ l', Inv threadId s' l' ∧ Kept s s' l' := by
  have h' : Inv threadId { s with waiting := none } l :=
    { h with waiter := nofun }
  rw [State.resume] at hstep
  split at hstep
  · cases hstep
  · split at hstep
    · cases hstep
    · next u hwaiting =>
      cases hstep
      obtain ⟨hu, hstarting⟩ := h.waiter _ hwaiting
      obtain ⟨l', honce⟩ := TrustThreadPool.acquireThreadOnce_spec (t := threadId u) policy seen
        h.rep h.utility_ne
      obtain ⟨hinv, hkept⟩ := h'.acquired hu hstarting honce
      exact ⟨l', hinv.refill, hkept⟩
    · cases hstep
      obtain ⟨l', honce⟩ := TrustThreadPool.acquireFreeThreadOnce_spec policy seen h.rep
      exact ⟨l', h'.taken honce⟩

/-! ### The other actions -/

/-- Steps after which the threads with a reference are where they were. -/
theorem kept_of_eq (h : Inv threadId s l) (hholder : s'.holder = s.holder)
    (hutility : s'.pool.utilityThread = s.pool.utilityThread) : Kept s s' l := by
  intro x hx
  rw [hholder, hutility]
  exact ⟨rfl, h.idle x hx⟩

theorem addThread {isUnallocated dynamic : Bool} (h : Inv threadId s l) (hx : x ∉ s.objects) :
    let s' := { s with
      pool := s.pool.addThread x isUnallocated dynamic
      objects := x :: s.objects }
    Inv threadId s' l ∧ Kept s s' l := by
  intro s'
  -- whichever place the new thread gets, the others stay where they are
  have hpool : s'.pool.threadList = s.pool.threadList ∧
      s'.pool.reference = update s.pool.reference x 0 ∧
      (∀ y, s.pool.utilityThread = some y → s'.pool.utilityThread = some y) ∧
      ∀ y, (s'.placesWith l).count y = (s.placesWith l).count y + [x].count y := by
    show (s.pool.addThread x isUnallocated dynamic).threadList = _ ∧
      (s.pool.addThread x isUnallocated dynamic).reference = _ ∧
      (∀ y, _ → (s.pool.addThread x isUnallocated dynamic).utilityThread = _) ∧
      ∀ y, (State.placesWith { s with
        pool := s.pool.addThread x isUnallocated dynamic, objects := x :: s.objects } l).count y = _
    rw [TrustThreadPool.addThread]
    split_ifs with hun hut
    · refine ⟨rfl, rfl, fun _ hy => hy, fun y => ?_⟩
      rw [count_placesWith, count_placesWith]
      simp only [TrustThreadPool.resetRef, TrustThreadPool.setRef, count_cons, count_nil]
      omega
    · have hnone : s.pool.utilityThread = none := hut.2
      refine ⟨rfl, rfl, (fun _ hy => nomatch hnone.symm.trans hy), fun y => ?_⟩
      rw [count_placesWith, count_placesWith, hnone]
      simp only [TrustThreadPool.resetRef, TrustThreadPool.setRef, toList_some,
        toList_none, count_cons, count_nil]
      omega
    · refine ⟨rfl, rfl, fun _ hy => hy, fun y => ?_⟩
      rw [count_placesWith, count_placesWith]
      simp only [TrustThreadPool.resetRef, TrustThreadPool.setRef,
        TrustThreadPool.addToFreeThreadVector, count_cons, count_nil]
      omega
  obtain ⟨hlist, href, hutility, hcount⟩ := hpool
  constructor
  · refine h.mono hlist (fun y => ?_) (nodup_cons.mpr ⟨hx, h.nodup⟩) (fun y hy => ?_)
      (fun _ hv => hv) (fun e he => ⟨he, (h.unbound e he).1⟩) h.starters h.waiter
    · rw [hcount, h.places]
      show _ = (x :: s.objects).count y
      simp only [count_cons, count_nil]
      omega
    · rw [href] at hy
      exact ⟨pos_of_reset hy, rfl, hutility y⟩
  · exact fun y hy => ⟨rfl, (h.idle y hy).imp_right (hutility y)⟩

theorem fill {made : Bool} (h : Inv threadId s l) :
    let s' := { s with pool := s.pool.fillTcsMiniPool made }
    Inv threadId s' l ∧ Kept s s' l := by
  intro s'
  have hpool : s'.pool.threadList = s.pool.threadList ∧ s'.pool.reference = s.pool.reference ∧
      s'.pool.utilityThread = s.pool.utilityThread ∧
      ∀ y, s'.pool.freeThreadVector.count y + s'.pool.unallocatedThreads.count y
        = s.pool.freeThreadVector.count y + s.pool.unallocatedThreads.count y := by
    simp only [s', TrustThreadPool.fillTcsMiniPool, TrustThreadPool.newThread]
    split
    · split
      · exact ⟨rfl, rfl, rfl, fun _ => rfl⟩
      · split
        · exact ⟨rfl, rfl, rfl, fun _ => rfl⟩
        · next x rest hrest =>
          split
          · refine ⟨rfl, rfl, rfl, fun y => ?_⟩
            rw [hrest]
            simp only [TrustThreadPool.addToFreeThreadVector, count_cons]
            omega
          · exact ⟨rfl, rfl, rfl, fun _ => rfl⟩
    · exact ⟨rfl, rfl, rfl, fun _ => rfl⟩
  obtain ⟨hlist, href, hutility, hcount⟩ := hpool
  refine ⟨h.mono hlist (fun y => ?_) h.nodup (fun y hy => ?_) (fun _ hv => hv)
    (fun e he => ⟨he, (h.unbound e he).1⟩) h.starters h.waiter, h.kept_of_eq rfl hutility⟩
  · have hall := h.places y
    have hy := hcount y
    rw [count_placesWith] at hall ⊢
    rw [hutility]
    dsimp only [s'] at hy ⊢
    omega
  · rw [href] at hy
    exact ⟨hy, rfl, fun hsome => hutility.trans hsome⟩

/-- `pthread_create` failed: what was taken for it is free again. -/
theorem createFailed (h : Inv threadId s l) (hx : x ∈ s.creating) :
    let s' := { s with
      pool := s.pool.addToFreeThreadVector x
      creating := s.creating.erase x }
    Inv threadId s' l ∧ Kept s s' l := by
  refine ⟨h.mono rfl (fun y => ?_) h.nodup (fun y hy => ⟨hy, rfl, id⟩) (fun _ hv => hv)
    (fun e he => ⟨he, (h.unbound e he).1⟩) h.starters h.waiter, h.kept_of_eq rfl rfl⟩
  have hall := h.places y
  have hcount := (perm_cons_erase hx).count_eq y
  rw [count_placesWith] at hall ⊢
  rw [count_cons] at hcount
  simp only [TrustThreadPool.addToFreeThreadVector, count_cons]
  omega

theorem ret [DecidableEq U] {rest : List X} {r : Return} (h : Inv threadId s l) :
    let s' := { s with
      pool := match r with
        | .done => s.pool.decreaseRef x
        | .pthreadExit => s.pool.resetRef x
        | .trimFailed => s.pool
      calls := update s.calls u rest }
    Inv threadId s' l ∧ Kept s s' l := by
  cases r with
  | done =>
    refine ⟨h.mono rfl h.places h.nodup (fun y hy => ⟨?_, rfl, id⟩) (fun _ hv => hv)
      (fun e he => ⟨he, (h.unbound e he).1⟩) h.starters h.waiter, h.kept_of_eq rfl rfl⟩
    have hy : 0 < update s.pool.reference x (s.pool.reference x - 1) y := hy
    by_cases hyx : y = x
    · rw [hyx, update_self] at hy
      rw [hyx]
      omega
    · rwa [update_of_ne hyx] at hy
  | pthreadExit =>
    exact ⟨h.mono rfl h.places h.nodup (fun y hy => ⟨pos_of_reset hy, rfl, id⟩) (fun _ hv => hv)
      (fun e he => ⟨he, (h.unbound e he).1⟩) h.starters h.waiter, h.kept_of_eq rfl rfl⟩
  | trimFailed =>
    exact ⟨h.mono rfl h.places h.nodup (fun y hy => ⟨hy, rfl, id⟩) (fun _ hv => hv)
      (fun e he => ⟨he, (h.unbound e he).1⟩) h.starters h.waiter, h.kept_of_eq rfl rfl⟩

theorem exit [DecidableEq U] (h : Inv threadId s l) (hwaiting : s.waiting.map Prod.fst ≠ some u)
    (hstarting : u ∉ s.starting.map Prod.fst) :
    let s' := { s with
      live := s.live.filter (· ≠ u)
      calls := update s.calls u [] }
    Inv threadId s' l ∧ Kept s s' l := by
  have hlive : ∀ v ∈ s.live, v ≠ u → v ∈ s.live.filter (· ≠ u) :=
    fun v hv hne => mem_filter.mpr ⟨hv, decide_eq_true hne⟩
  refine ⟨h.mono rfl h.places h.nodup (fun y hy => ⟨hy, rfl, id⟩)
    (fun v hv => (mem_filter.mp hv).1) (fun e he => ⟨he, ?_⟩) h.starters (fun e he => ?_),
    h.kept_of_eq rfl rfl⟩
  · refine hlive e.1 (h.unbound e he).1 ?_
    rintro rfl
    exact hstarting (List.mem_map.mpr ⟨e, he, rfl⟩)
  · refine ⟨hlive e.1 (h.waiter e he).1 ?_, (h.waiter e he).2⟩
    rintro rfl
    have hsome : s.waiting = some e := he
    rw [hsome] at hwaiting
    exact hwaiting rfl

/-- A thread starts whose identifier is not the one of a thread with a reference. -/
theorem launch [DecidableEq T] (h : Inv threadId s l) (hstart : s.CanStart threadId u)
    (hbound : ∀ x ∈ s.pool.getBoundThread (threadId u), s.pool.reference x ≤ 0) :
    Inv threadId (s.launch u) l ∧ Kept s (s.launch u) l := by
  obtain ⟨-, hids⟩ := hstart
  refine ⟨⟨h.rep, h.places, h.nodup, h.keys, h.idle, fun t x hmem hx => ?_, fun v hv w hw hid => ?_,
    fun e he => ⟨mem_cons_of_mem _ (h.unbound e he).1, (h.unbound e he).2⟩, h.starters,
    fun e he => ⟨mem_cons_of_mem _ (h.waiter e he).1, (h.waiter e he).2⟩⟩,
    h.kept_of_eq rfl rfl⟩
  · obtain ⟨w, hw, hid, honly⟩ := h.owner t x hmem hx
    refine ⟨w, hw, hid, fun v hv hvt => ?_⟩
    rcases mem_cons.mp hv with rfl | hv
    · -- the identifier of the new thread would be bound to `x`
      have hfind : s.pool.getBoundThread (threadId v) = some x := by
        obtain ⟨y, hy⟩ := ne_none_iff_exists'.mp fun hnone =>
          (NodeList.findValue_eq_none h.rep).mp hnone (List.mem_map.mpr ⟨_, hmem, hvt.symm⟩)
        have hmem' := NodeList.mem_of_findValue h.rep hy
        have heq := inj_on_of_nodup_map h.keys hmem' hmem hvt
        exact hy.trans (congrArg some (congrArg Prod.snd heq))
      exact absurd hx (Int.not_lt.mpr (hbound x hfind))
    · exact honly v hv hvt
  · rcases mem_cons.mp hv with hvu | hv'
    · rcases mem_cons.mp hw with hwu | hw'
      · exact hvu.trans hwu.symm
      · exact absurd (hid.symm.trans (congrArg threadId hvu)) (hids w hw')
    · rcases mem_cons.mp hw with hwu | hw'
      · exact absurd (hid.trans (congrArg threadId hwu)) (hids v hv')
      · exact h.ids v hv' w hw' hid

theorem created [DecidableEq T] (h : Inv threadId s l) (hx : x ∈ s.creating)
    (hstart : s.CanStart threadId u)
    (hbound : s.pool.getBoundThread (threadId u) = none) :
    let s' := { s.launch u with
      creating := s.creating.erase x
      starting := (u, x) :: s.starting }
    Inv threadId s' l ∧ Kept s s' l := by
  have hnone : ∀ x ∈ s.pool.getBoundThread (threadId u), s.pool.reference x ≤ 0 :=
    fun x hx => nomatch hbound.symm.trans hx
  have hnot : u ∉ s.live := fun hu => hstart.2 u hu rfl
  obtain ⟨hlaunch, -⟩ := h.launch hstart hnone
  refine ⟨⟨h.rep, fun y => ?_, h.nodup, h.keys, h.idle, hlaunch.owner, hlaunch.ids, fun e he => ?_,
    ?_, fun e he => ⟨(hlaunch.waiter e he).1, fun hmem => ?_⟩⟩, h.kept_of_eq rfl rfl⟩
  · have hall := h.places y
    have hcount := (perm_cons_erase hx).count_eq y
    rw [count_placesWith] at hall ⊢
    rw [count_cons] at hcount
    simp only [State.launch, map_cons, count_cons]
    omega
  · rcases mem_cons.mp he with rfl | he
    · exact ⟨mem_cons_self, (NodeList.findValue_eq_none h.rep).mp hbound⟩
    · exact hlaunch.unbound e he
  · refine nodup_cons.mpr ⟨fun hmem => ?_, h.starters⟩
    obtain ⟨e, he, heq⟩ := List.mem_map.mp hmem
    have hu := (h.unbound e he).1
    rw [heq] at hu
    exact hnot hu
  · rcases mem_cons.mp hmem with heq | hmem
    · have hu := (h.waiter e he).1
      rw [heq] at hu
      exact hnot hu
    · exact (h.waiter e he).2 hmem

/-- `pthread_create_routine` binds what it was given. -/
theorem bindPthread [DecidableEq U] [DecidableEq T] (h : Inv threadId s l)
    (hmem : (u, x) ∈ s.starting) (hwaiting : s.waiting = none) :
    let s' := { s with
      pool := (s.pool.bindThread (threadId u) x).1
      starting := s.starting.erase (u, x)
      holder := update s.holder x (some u) }
    ∃ l', Inv threadId s' l' ∧ Kept s s' l' := by
  obtain ⟨hu, hkey⟩ := h.unbound _ hmem
  have hperm := perm_cons_erase hmem
  have hstarters := (hperm.map Prod.fst).nodup_iff.mp h.starters
  rw [map_cons, nodup_cons] at hstarters
  have hbind := NodeList.bind_spec (k := threadId u) (v := x) h.rep
  rw [if_neg hkey] at hbind
  -- seen as a free thread, it is bound like any other one
  have hfree : Inv threadId { s with
      pool := s.pool.addToFreeThreadVector x
      starting := s.starting.erase (u, x) } l := by
    refine h.mono rfl (fun y => ?_) h.nodup (fun y hy => ⟨hy, rfl, id⟩) (fun _ hv => hv)
      (fun e he => ⟨mem_of_mem_erase he, (h.unbound e (mem_of_mem_erase he)).1⟩)
      hstarters.2 fun e he => nomatch hwaiting.symm.trans he
    have hall := h.places y
    have hcount := (hperm.map Prod.snd).count_eq y
    rw [count_placesWith] at hall ⊢
    rw [map_cons, count_cons] at hcount
    simp only [TrustThreadPool.addToFreeThreadVector, count_cons]
    dsimp only at hcount
    omega
  exact ⟨_, hfree.bindFree rfl hu hstarters.1 hkey hbind.2⟩

end Inv

/-- What `reset` does, one thread of the list after the other. -/
theorem reset_loop (vs : List X) (p : TrustThreadPool T X) :
    let q := vs.foldl (fun p x => (p.resetRef x).addToFreeThreadVector x) p
    q.freeThreadVector = vs.reverse ++ p.freeThreadVector ∧ q.threadList = p.threadList ∧
      q.unallocatedThreads = p.unallocatedThreads ∧ q.utilityThread = p.utilityThread ∧
      ∀ y, 0 < q.reference y → 0 < p.reference y := by
  induction vs generalizing p with
  | nil => exact ⟨rfl, rfl, rfl, rfl, fun _ hy => hy⟩
  | cons x vs ih =>
    obtain ⟨hfree, hlist, hunallocated, hutility, href⟩ :=
      ih ((p.resetRef x).addToFreeThreadVector x)
    refine ⟨?_, hlist, hunallocated, hutility, fun y hy => pos_of_reset (href y hy)⟩
    rw [foldl_cons, hfree, reverse_cons, List.append_assoc]
    rfl

theorem Inv.reset (h : Inv threadId s l) (hwaiting : s.waiting = none)
    (href : ∀ x ∈ s.pool.threadList.values, s.pool.reference x ≤ 0) :
    let s' := { s with pool := s.pool.reset }
    Inv threadId s' [] ∧ Kept s s' [] := by
  have hvalues := NodeList.values_eq h.rep
  obtain ⟨hfree, hlist, hunallocated, hutility, hpos⟩ :=
    reset_loop s.pool.threadList.values { s.pool with threadList := s.pool.threadList.clear }
  rw [hvalues] at href
  have hplace : ∀ x, 0 < s.pool.reference x → s.pool.utilityThread = some x := by
    intro x hx
    rcases h.idle x hx with hmem | hsome
    · exact absurd hx (Int.not_lt.mpr (href x hmem))
    · exact hsome
  refine ⟨⟨?_, fun y => ?_, h.nodup, nodup_nil, fun y hy => ?_, nofun,
    h.ids, fun e he => ⟨(h.unbound e he).1, nofun⟩, h.starters,
    (fun e he => nomatch hwaiting.symm.trans he)⟩, fun y hy => ⟨rfl, ?_⟩⟩
  · exact hlist ▸ NodeList.rep_clear
  · have hall := h.places y
    rw [count_placesWith, ← hvalues] at hall
    rw [count_placesWith]
    show s.pool.reset.freeThreadVector.count y + 0 + s.pool.reset.unallocatedThreads.count y
      + s.pool.reset.utilityThread.toList.count y + _ + _ = _
    rw [TrustThreadPool.reset, hfree, hunallocated, hutility, count_append, count_reverse]
    dsimp only
    omega
  · right
    rw [TrustThreadPool.reset, hutility]
    exact hplace y (hpos y hy)
  · right
    rw [TrustThreadPool.reset, hutility]
    exact hplace y hy

/-! ### Runs -/

variable [DecidableEq U] [DecidableEq T]

theorem Inv.step {a : Action U T X} (h : Inv threadId s l) (hproper : Proper threadId s a)
    (hstep : step threadId policy a s = some s') : ∃ l', Inv threadId s' l' ∧ Kept s s' l' := by
  rw [Threads.step.eq_def] at hstep
  dsimp only at hstep
  split at hstep
  · cases hstep
  · cases a
    case' addThread | start | exit | acquire | acquireFree | createFailed | created | bindPthread |
        reset =>
      obtain ⟨hguard, hstep⟩ := ite_none_right_eq_some.mp hstep
      cases hstep
    case addThread => exact ⟨l, h.addThread hguard.1⟩
    case start => exact ⟨l, h.launch hguard hproper⟩
    case exit => exact ⟨l, h.exit hguard.2.1 hguard.2.2⟩
    case acquire => exact h.acquireThread hguard hproper
    case acquireFree => exact h.acquireFreeThread hguard
    case resume => exact h.resume hstep
    case fill =>
      cases hstep
      exact ⟨l, h.fill⟩
    case ret =>
      dsimp only at hstep
      split at hstep
      · cases hstep
      · split at hstep
        · cases hstep
        · cases hstep
          exact ⟨l, h.ret⟩
    case attrFailed => exact hproper.elim
    case createFailed => exact ⟨l, h.createFailed hguard⟩
    case created => exact ⟨l, h.created hguard.1 hguard.2 hproper⟩
    case bindPthread => exact h.bindPthread hguard.1 hguard.2
    case reset => exact ⟨[], h.reset hguard hproper⟩

/-- A pool as its constructor makes it. -/
structure Fresh (p : TrustThreadPool T X) : Prop where
  free : p.freeThreadVector = []
  unallocated : p.unallocatedThreads = []
  list : p.threadList.head = none
  utility : p.utilityThread = none
  reference : ∀ x, p.reference x = 0

theorem exists_inv_of_run {p : TrustThreadPool T X} {as : List (Action U T X)} (hp : Fresh p)
    (hrun : run (only (Proper threadId) (step threadId policy)) as (State.init p) = some s) :
    ∃ l, Inv threadId s l := by
  refine invariant_of_run (I := fun s => ∃ l, Inv threadId s l) ?_ hrun ⟨[], ?_⟩
  · rintro a s s' ⟨l, h⟩ hstep
    obtain ⟨hproper, hstep⟩ := only_eq_some.mp hstep
    obtain ⟨l', h', -⟩ := h.step hproper hstep
    exact ⟨l', h'⟩
  · refine Inv.init hp.free hp.unallocated ⟨[], ⟨hp.list, nodup_nil, ?_⟩, rfl⟩ hp.utility
      hp.reference
    exact nofun

/-- **Ownership.**  In every state of a run each trusted thread is in one place, no identifier is
twice in the list, and the next step neither makes a thread with a reference free nor gives it to
another thread than the one that has it. -/
theorem pool_ownership {p : TrustThreadPool T X} {as : List (Action U T X)} (hp : Fresh p)
    (hrun : run (only (Proper threadId) (step threadId policy)) as (State.init p) = some s) :
    (∀ x ∈ s.objects, s.places.count x = 1) ∧ (∀ x ∉ s.objects, x ∉ s.places) ∧
      (s.pool.threadList.pairs.map Prod.fst).Nodup ∧
      ∀ a s', only (Proper threadId) (step threadId policy) a s = some s' →
        ∀ x, 0 < s.pool.reference x →
          s'.holder x = s.holder x ∧ x ∉ s.pool.freeThreadVector ∧ x ∉ s'.pool.freeThreadVector := by
  obtain ⟨l, h⟩ := exists_inv_of_run hp hrun
  rw [places_eq h.rep, NodeList.pairs_eq h.rep]
  refine ⟨fun x hx => ?_, fun x hx hmem => ?_, h.keys, fun a s' hstep x hx => ?_⟩
  · rw [h.places]
    exact count_eq_one_of_mem h.nodup hx
  · have hpos := count_pos_iff.mpr hmem
    rw [h.places, count_pos_iff] at hpos
    exact hx hpos
  · obtain ⟨hproper, hstep⟩ := only_eq_some.mp hstep
    obtain ⟨l', h', hkept⟩ := h.step hproper hstep
    obtain ⟨hholder, hplace⟩ := hkept x hx
    refine ⟨hholder, fun hfree => ?_, fun hfree => ?_⟩
    · exact absurd hx (Int.not_lt.mpr (h.free_le hfree).2.2)
    · obtain ⟨hlist, hutility, -⟩ := h'.free_le hfree
      rcases hplace with hmem | hsome
      · exact hlist hmem
      · exact hutility hsome

end Invariant

/-! ### Runs with a few threads -/

/-- A new pool of a process in which threads have the identifiers 0 to 9. -/
def newPool : TrustThreadPool ℕ ℕ := ⟨[], [], NodeList.empty 0 0, none, 0, false, fun _ => 0⟩

theorem newPool_fresh : Fresh newPool := ⟨rfl, rfl, rfl, rfl, fun _ => rfl⟩

abbrev digit (u : ℕ) : ℕ := u % 10

/-- Two threads call, one of them from within its call, and the one that has returned exits; its
trusted thread is collected for a thread of the enclave. -/
def calls : List (Action ℕ ℕ ℕ) :=
  [.addThread 100 false false, .addThread 101 false false, .start 1, .start 2,
    .acquire 1 .other [1, 2], .acquire 2 .other [1, 2], .acquire 2 .other [1, 2], .ret 1 .done,
    .exit 1, .acquireFree 2 [2], .created 101 11, .bindPthread 11 101, .acquire 11 .other [2, 1]]

theorem pool_ownership_calls :
    ∃ s, run (only (Proper digit) (step digit .bind)) calls (State.init newPool) = some s ∧
      s.pool.reference 100 = 2 ∧ s.pool.reference 101 = 1 ∧
      (∀ x ∈ s.objects, s.places.count x = 1) ∧
      ∀ a s', only (Proper digit) (step digit .bind) a s = some s' →
        ∀ x, 0 < s.pool.reference x →
          s'.holder x = s.holder x ∧ x ∉ s.pool.freeThreadVector ∧
            x ∉ s'.pool.freeThreadVector := by
  have hrefs : (run (only (Proper digit) (step digit .bind)) calls (State.init newPool)).map
      (fun s => (s.pool.reference 100, s.pool.reference 101)) = some (2, 1) := by decide
  obtain ⟨s, hrun, hs⟩ := map_eq_some_iff.mp hrefs
  have howned := pool_ownership newPool_fresh hrun
  exact ⟨s, hrun, congrArg Prod.fst hs, congrArg Prod.snd hs, howned.1, howned.2.2.2⟩

/-- Thread 11 of the enclave has the identifier of thread 1, whose entry is still in the list. -/
def reusedId : List (Action ℕ ℕ ℕ) :=
  [.addThread 100 false false, .addThread 101 false false, .addThread 102 false false, .start 1,
    .start 2, .acquire 1 .other [1, 2], .ret 1 .done, .exit 1, .acquire 2 .other [2],
    .acquireFree 2 [2], .created 100 11, .bindPthread 11 100]

/-- **A trusted thread is lost.**  `bind_pthread` fails, its result is not looked at, and the trusted
thread that was taken for the new thread is nowhere. -/
theorem lost_trust_thread :
    ∃ s, run (step digit .bind) reusedId (State.init newPool) = some s ∧
      100 ∈ s.objects ∧ s.places.count 100 = 0 := by
  have hlost : (run (step digit .bind) reusedId (State.init newPool)).map
      (fun s => (decide (100 ∈ s.objects), s.places.count 100)) = some (true, 0) := by decide
  obtain ⟨s, hrun, hs⟩ := map_eq_some_iff.mp hlost
  exact ⟨s, hrun, of_decide_eq_true (congrArg Prod.fst hs), congrArg Prod.snd hs⟩

end Urts.Threads
