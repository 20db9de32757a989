/-
The thread that makes other threads (`acquire_thread` of `tcs.cpp`).

With dynamic threads one trusted thread, the utility thread, makes the control structures of the
others.  The call that ends the enclave runs on it, the pool gives it up, and the control structures of
all other threads are trimmed.  `acquire_thread` hands them out even so, and asks for new threads
through the utility thread that is not there.

* `TrustThreadPool.Of`, `Known` — the threads of the pool are objects of it other than the utility
  thread, whatever its users do;
* `Watched` — the threads of the process, with those that were given up or trimmed;
* **`utility_thread_safe`** — calls that come before the one that ends the enclave, or find the pool
  exhausted, get a live thread or none;
* `utility_thread_null` — a call after the last one.
-/
import LinuxSgx.Urts.Threads


open Runs List Option

namespace Urts

namespace TrustThreadPool

variable {T X : Type} {p q : TrustThreadPool T X}
  {l l' : List (T × X)} {t : T} {x : X} {A : X → Prop}

/-- The threads of the pool, the utility thread apart. -/
structure Of (A : X → Prop) (p : TrustThreadPool T X) (l : List (T × X)) : Prop where
  rep : p.threadList.Rep l
  keys : (l.map Prod.fst).Nodup
  all : ∀ x ∈ p.freeThreadVector ++ l.map Prod.snd ++ p.unallocatedThreads, A x

variable {r : Option X × TrustThreadPool T X}

theorem Taken.utility (h : Taken p l r l') : r.2.utilityThread = p.utilityThread := by
  cases h with
  | none hq => exact hq.utility
  | some hq => exact hq.utility

theorem Acquired.utility (h : Acquired p l t r l') : r.2.utilityThread = p.utilityThread := by
  cases h with
  | bound => rfl
  | none hq => exact hq.utility
  | taken hq => exact hq.utility

theorem Acquired.unallocated (h : Acquired p l t r l') :
    r.2.unallocatedThreads = p.unallocatedThreads := by
  cases h with
  | bound => rfl
  | none hq => exact hq.unallocated
  | taken hq => exact hq.unallocated

theorem utilityThread_fill (made : Bool) :
    (p.fillTcsMiniPool made).utilityThread = p.utilityThread := by
  rw [fillTcsMiniPool, newThread]
  repeat' split
  all_goals rfl

theorem utilityThread_reset [DecidableEq X] : p.reset.utilityThread = p.utilityThread :=
  (Threads.reset_loop p.threadList.values { p with threadList := p.threadList.clear }).2.2.2.1

/-- A thread that a collection has made free had no reference. -/
theorem Collected.reference_eq_zero [DecidableEq X] (hq : Collected p q l l')
    (hkeys : (l.map Prod.fst).Nodup)
    (hx : x ∈ q.freeThreadVector) (hfree : x ∉ p.freeThreadVector) :
    x ∈ l.map Prod.snd ∧ p.reference x = 0 := by
  have hmem : x ∈ l.map Prod.snd :=
    (mem_append.mp (hq.perm.mem_iff.mp (mem_append_left _ hx))).resolve_left hfree
  refine ⟨hmem, ?_⟩
  by_contra href
  -- all its entries would be in the list still
  have hentries : l.filter (fun e => e.2 = x) ⊆ l'.filter (fun e => e.2 = x) := by
    intro e he
    rw [mem_filter, decide_eq_true_eq] at he ⊢
    exact ⟨hq.kept e he.1 (he.2 ▸ href), he.2⟩
  have hle := ((hkeys.of_map Prod.fst).filter (fun e => decide (e.2 = x))).subperm hentries |>.length_le
  have hentry : ∀ m : List (T × X),
      (m.map Prod.snd).count x = (m.filter fun e => e.2 = x).length := by
    intro m
    rw [count_eq_countP, countP_map, countP_eq_length_filter]
    rfl
  have hcount := hq.perm.count_eq x
  rw [count_append, count_append, count_eq_zero.mpr hfree, hentry, hentry] at hcount
  have hpos := count_pos_iff.mpr hx
  omega

namespace Of

theorem mono {B : X → Prop} (h : Of A p l) (hAB : ∀ x, A x → B x) : Of B p l :=
  ⟨h.rep, h.keys, fun x hx => hAB x (h.all x hx)⟩

theorem bound (h : Of A p l) (hx : x ∈ l.map Prod.snd) : A x :=
  h.all x (mem_append_left _ (mem_append_right _ hx))

theorem collected (h : Of A p l) (hq : Collected p q l l') : Of A q l' := by
  refine ⟨hq.rep, h.keys.sublist (hq.sublist.map _), fun x hx => h.all x ?_⟩
  rw [hq.unallocated] at hx
  exact (hq.perm.append_right _).mem_iff.mp hx

/-- The last of the free threads is taken. -/
theorem free {free : List X} (h : Of A q l) (hfree : q.freeThreadVector = x :: free) :
    Of A { q with freeThreadVector := free } l ∧ A x := by
  have hall := h.all
  rw [hfree, cons_append, cons_append, forall_mem_cons] at hall
  exact ⟨⟨h.rep, h.keys, hall.2⟩, hall.1⟩

theorem insert [DecidableEq X] {n : NodeList T X} (h : Of A p l) (ht : t ∉ l.map Prod.fst)
    (hx : A x)
    (hn : n.Rep (NodeList.insertSecond (t, x) l)) :
    Of A { p with threadList := n } (NodeList.insertSecond (t, x) l) := by
  have hperm := NodeList.insertSecond_perm (e := (t, x)) (l := l)
  refine ⟨hn, ?_, fun y hy => ?_⟩
  · rw [(hperm.map Prod.fst).nodup_iff]
    exact nodup_cons.mpr ⟨ht, h.keys⟩
  · by_cases hyx : y = x
    · exact hyx ▸ hx
    · have hmem := (hperm.map Prod.snd).mem_iff (a := y)
      rw [map_cons, mem_cons, or_iff_right hyx] at hmem
      refine h.all y ?_
      rwa [mem_append, mem_append, hmem, ← mem_append, ← mem_append] at hy

variable {r : Option X × TrustThreadPool T X}

theorem taken (h : Of A p l) (hr : Taken p l r l') : Of A r.2 l' ∧ ∀ x, r.1 = some x → A x := by
  cases hr with
  | none hq => exact ⟨h.collected hq, nofun⟩
  | some hq hfree =>
    obtain ⟨hrest, hx⟩ := (h.collected hq).free hfree
    refine ⟨hrest, ?_⟩
    rintro x ⟨⟩
    exact hx

theorem acquired [DecidableEq X] (h : Of A p l) (hr : Acquired p l t r l') :
    Of A r.2 l' ∧ ∀ x, r.1 = some x → A x := by
  cases hr with
  | bound hx =>
    refine ⟨h, ?_⟩
    rintro x ⟨⟩
    exact h.bound (List.mem_map.mpr ⟨_, hx, rfl⟩)
  | none hq => exact ⟨h.collected hq, nofun⟩
  | taken hq hfree ht hn =>
    obtain ⟨hrest, hx⟩ := (h.collected hq).free hfree
    refine ⟨hrest.insert (fun hmem => ht ((hq.sublist.map _).mem hmem)) hx hn, ?_⟩
    rintro x ⟨⟩
    exact hx

theorem bind [DecidableEq T] [DecidableEq X] (h : Of A p l) (hx : A x) :
    ∃ l', Of A (p.bindThread t x).1 l' := by
  have hbind := NodeList.bind_spec (k := t) (v := x) h.rep
  rw [bindThread]
  split_ifs at hbind with ht
  · rw [hbind]
    exact ⟨l, h⟩
  · exact ⟨_, h.insert ht hx hbind.2⟩

theorem unbind [DecidableEq T] [DecidableEq X] (h : Of A p l) :
    ∃ l', Of A (p.unbindThread t) l' := by
  obtain ⟨hvalue, hrep⟩ := NodeList.unbind_spec (k := t) h.rep
  have hsub : (l.eraseP fun e => e.1 = t).Sublist l := eraseP_sublist
  have hkeys := h.keys.sublist (hsub.map _)
  have hall := fun x hx => h.all x ((((hsub.map Prod.snd).append_left _).append_right _).mem hx)
  refine ⟨l.eraseP fun e => e.1 = t, ?_⟩
  rw [unbindThread]
  split
  · next n heq =>
    rw [heq] at hrep
    exact ⟨hrep, hkeys, hall⟩
  · next n x heq =>
    rw [heq] at hrep hvalue
    obtain ⟨e, he, rfl⟩ := map_eq_some_iff.mp hvalue.symm
    have hx := h.bound (List.mem_map.mpr ⟨e, mem_of_find?_eq_some he, rfl⟩)
    exact ⟨hrep, hkeys, forall_mem_cons.mpr ⟨hx, hall⟩⟩

theorem reset [DecidableEq X] (h : Of A p l) : Of A p.reset [] := by
  obtain ⟨hfree, hlist, hunallocated, -⟩ :=
    Threads.reset_loop p.threadList.values { p with threadList := p.threadList.clear }
  refine ⟨?_, nodup_nil, fun x hx => h.all x ?_⟩
  · rw [TrustThreadPool.reset, hlist]
    exact NodeList.rep_clear
  · rw [TrustThreadPool.reset, hfree, hunallocated, NodeList.values_eq h.rep, map_nil,
      append_nil] at hx
    refine (Perm.append_right _ ?_).mem_iff.mp hx
    exact (perm_append_comm.trans ((reverse_perm _).append_left _))

theorem fill (h : Of A p l) (made : Bool) : Of A (p.fillTcsMiniPool made) l := by
  have hnew : Of A (p.newThread made) l := by
    rw [newThread]
    split
    · exact h
    split
    · exact h
    · next x rest hunallocated =>
      split
      · refine ⟨h.rep, h.keys, fun y hy => h.all y ?_⟩
        rw [hunallocated]
        exact perm_middle.mem_iff.mpr hy
      · exact h
  rw [fillTcsMiniPool]
  split_ifs
  · exact { hnew with }
  · exact { h with }

end Of

end TrustThreadPool

namespace Threads

section Model

variable {U T X : Type} {threadId : U → T}
  {policy : Policy} {s s' : State U T X} {l l' : List (T × X)} {x : X} {u : U} {g : List X}

/-- The actions that end in `acquire_thread`. -/
def Action.acquires : Action U T X → Bool
  | .acquire .. | .resume _ => true
  | _ => false

theorem crashed_handOut [DecidableEq X] {r : Option X × TrustThreadPool T X} :
    (s.handOut r).crashed = s.crashed := by
  obtain ⟨_ | x, q⟩ := r
  · rfl
  · rfl

/-- An object other than the utility thread. -/
def State.Ordinary (s : State U T X) (x : X) : Prop := x ∈ s.objects ∧ s.pool.utilityThread ≠ some x

/-- All trusted threads are objects, and the utility thread is in no other place nor among `g`. -/
structure Known (g : List X) (s : State U T X) (l : List (T × X)) : Prop where
  pool : s.pool.Of s.Ordinary l
  creating : ∀ x ∈ s.creating, s.Ordinary x
  starting : ∀ e ∈ s.starting, s.Ordinary e.2
  given : ∀ x ∈ g, s.Ordinary x
  utility : ∀ x ∈ s.pool.utilityThread, x ∈ s.objects

namespace Known

/-- A step that takes no object away from the others. -/
theorem mono (h : Known g s l) (hpool : s'.pool.Of s.Ordinary l') (hobjects : s'.objects = s.objects)
    (hutility : s'.pool.utilityThread = s.pool.utilityThread)
    (hcreating : ∀ x ∈ s'.creating, s.Ordinary x) (hstarting : ∀ e ∈ s'.starting, s.Ordinary e.2) :
    Known g s' l' := by
  have hordinary : s'.Ordinary = s.Ordinary := by
    funext x
    rw [State.Ordinary, State.Ordinary, hobjects, hutility]
  refine ⟨?_, ?_, ?_, ?_, ?_⟩
  · rwa [hordinary]
  · rwa [hordinary]
  · rwa [hordinary]
  · rw [hordinary]
    exact h.given
  · rw [hobjects, hutility]
    exact h.utility

theorem utility_ne (h : Known g s l) : ∀ x ∈ l.map Prod.snd, s.pool.utilityThread ≠ some x :=
  fun _ hx => (h.pool.bound hx).2

/-- A new object comes to the others, which stay what they are. -/
theorem grow {q : TrustThreadPool T X} (h : Known g s l) (hx : x ∉ s.objects)
    (hutility : q.utilityThread = s.pool.utilityThread ∨ q.utilityThread = some x)
    (hq : (∀ y, s.Ordinary y → y ∈ x :: s.objects ∧ q.utilityThread ≠ some y) →
      q.Of (fun y => y ∈ x :: s.objects ∧ q.utilityThread ≠ some y) l) :
    Known g { s with pool := q, objects := x :: s.objects } l := by
  have hother : ∀ y, s.Ordinary y → y ∈ x :: s.objects ∧ q.utilityThread ≠ some y := by
    rintro y ⟨hy, hyne⟩
    refine ⟨mem_cons_of_mem _ hy, ?_⟩
    rcases hutility with heq | heq
    · rwa [heq]
    · rw [heq]
      rintro ⟨⟩
      exact hx hy
  refine ⟨hq hother, fun y hy => hother y (h.creating y hy), fun e he => hother e.2 (h.starting e he),
    fun y hy => hother y (h.given y hy), fun y hy => ?_⟩
  rcases hutility with heq | heq
  · exact mem_cons_of_mem _ (h.utility y (heq ▸ hy))
  · cases heq.symm.trans hy
    exact mem_cons_self

theorem addThread [DecidableEq X] (h : Known g s l) (hx : x ∉ s.objects)
    (isUnallocated dynamic : Bool) :
    Known g { s with pool := s.pool.addThread x isUnallocated dynamic, objects := x :: s.objects } l := by
  have hne : s.pool.utilityThread ≠ some x := fun hu => hx (h.utility x hu)
  rw [TrustThreadPool.addThread]
  split_ifs
  · refine h.grow hx (.inl rfl) fun hother => ⟨h.pool.rep, h.pool.keys, fun y hy => ?_⟩
    rcases mem_cons.mp (perm_middle.mem_iff.mp hy) with rfl | hy
    · exact ⟨mem_cons_self, hne⟩
    · exact hother y (h.pool.all y hy)
  · exact h.grow hx (.inr rfl) fun hother =>
      ⟨h.pool.rep, h.pool.keys, fun y hy => hother y (h.pool.all y hy)⟩
  · exact h.grow hx (.inl rfl) fun hother => ⟨h.pool.rep, h.pool.keys,
      forall_mem_cons.mpr ⟨⟨mem_cons_self, hne⟩, fun y hy => hother y (h.pool.all y hy)⟩⟩

variable {r : Option X × TrustThreadPool T X}

/-- The end of a call of `acquire_thread`. -/
theorem deliver [DecidableEq U] [DecidableEq X] (h : Known g s l)
    (hr : TrustThreadPool.Of s.Ordinary r.2 l')
    (hutility : r.2.utilityThread = s.pool.utilityThread) :
    Known g (s.deliver u r) l' := by
  obtain ⟨_ | x, q⟩ := r
  · exact h.mono hr rfl hutility h.creating h.starting
  · exact h.mono { hr with } rfl hutility h.creating h.starting

theorem handOut [DecidableEq X] (h : Known g s l) (hr : TrustThreadPool.Taken s.pool l r l') :
    Known g (s.handOut r) l' := by
  obtain ⟨hq, hx⟩ := h.pool.taken hr
  cases hr with
  | none hcollected => exact h.mono hq rfl hcollected.utility h.creating h.starting
  | some hcollected hfree =>
    exact h.mono { hq with } rfl hcollected.utility
      (forall_mem_cons.mpr ⟨hx _ rfl, h.creating⟩) h.starting

theorem wait {q : TrustThreadPool T X} {request : Request} (h : Known g s l)
    (hq : TrustThreadPool.Of s.Ordinary q l') (hutility : q.utilityThread = s.pool.utilityThread) :
    Known g (s.wait u request q) l' :=
  h.mono { hq with } rfl hutility h.creating h.starting

/-- The utility thread is given up, and is bound to the thread that ends the enclave. -/
theorem uninit [DecidableEq U] [DecidableEq X] {q : TrustThreadPool T X} (h : Known g s l)
    (hq : TrustThreadPool.Of (· ∈ s.objects) q l') :
    Known g (s.deliver u (some x, { q with utilityThread := none })) l' := by
  have hordinary : ∀ y ∈ s.objects, y ∈ s.objects ∧ (none : Option X) ≠ some y := by simp
  have hpool := hq.mono hordinary
  exact ⟨{ hpool with },
    fun y hy => hordinary y (h.creating y hy).1, fun e he => hordinary e.2 (h.starting e he).1,
    fun y hy => hordinary y (h.given y hy).1, by
      rintro y ⟨⟩⟩

/-- The utility thread of now is alive. -/
theorem utility_not_given (hk : Known g s l) (hx : s.pool.utilityThread = some x) :
    x ∈ s.objects ∧ x ∉ g :=
  ⟨hk.utility x hx, fun hmem => (hk.given x hmem).2 hx⟩

theorem acquireFreeThread [DecidableEq T] [DecidableEq X] (h : Known g s l) (seen : List T) :
    ∃ l', Known g (s.acquireFreeThread policy u seen) l' ∧
      (s.acquireFreeThread policy u seen).crashed = s.crashed := by
  obtain ⟨l', honce⟩ := TrustThreadPool.acquireFreeThreadOnce_spec policy seen h.pool.rep
  rw [State.acquireFreeThread]
  split
  · exact ⟨l', h.wait (h.pool.taken honce).1 honce.utility, rfl⟩
  · exact ⟨l', h.handOut honce, crashed_handOut⟩

variable [DecidableEq U] [DecidableEq T] [DecidableEq X]

theorem acquireThread (h : Known g s l) (cmd : Cmd) (seen : List T) :
    ∃ l', Known g (s.acquireThread threadId policy u cmd seen) l' := by
  obtain ⟨l', honce⟩ := TrustThreadPool.acquireThreadOnce_spec (t := threadId u) policy seen
    h.pool.rep h.utility_ne
  obtain ⟨hq, -⟩ := h.pool.acquired honce
  have hutility := honce.utility
  have hdeliver : Known g (s.deliver u (s.pool.acquireThreadOnce policy seen (threadId u))) l' :=
    h.deliver hq hutility
  rw [State.acquireThread.eq_def]
  dsimp only
  split
  · exact ⟨l, h.deliver h.pool rfl⟩
  · next x hx =>
    have hobjects := h.pool.mono fun y (hy : s.Ordinary y) => hy.1
    obtain ⟨l₁, hunbind⟩ := hobjects.unbind (t := threadId u)
    obtain ⟨l₂, hbind⟩ := hunbind.bind (t := threadId u) (h.utility x hx)
    exact ⟨l₂, h.uninit hbind⟩
  · exact ⟨l', hdeliver⟩
  · exact ⟨l', hdeliver⟩
  · split
    · exact ⟨l', h.wait hq hutility⟩
    · exact ⟨l', { hdeliver with }⟩

theorem resume {seen : List T} (h : Known g s l) (hstep : s.resume threadId policy seen = some s') :
    ∃ l', Known g s' l' := by
  have h' : Known g { s with waiting := none } l := { h with }
  rw [State.resume] at hstep
  split at hstep
  · cases hstep
  split at hstep
  · cases hstep
  · next u hwaiting =>
    cases hstep
    obtain ⟨l', honce⟩ := TrustThreadPool.acquireThreadOnce_spec (t := threadId u) policy seen
      h.pool.rep h.utility_ne
    have hdeliver := h'.deliver (u := u) (h.pool.acquired honce).1 honce.utility
    exact ⟨l', { hdeliver with }⟩
  · cases hstep
    obtain ⟨l', honce⟩ := TrustThreadPool.acquireFreeThreadOnce_spec policy seen h.pool.rep
    exact ⟨l', h'.handOut honce⟩

/-- Every step, whatever the untrusted threads do; only `acquire_thread` uses the utility thread
without a look at it. -/
theorem step {a : Action U T X} (h : Known g s l) (hstep : step threadId policy a s = some s') :
    (∃ l', Known g s' l') ∧ (a.acquires = false → s'.crashed = false) := by
  rw [Threads.step.eq_def] at hstep
  dsimp only at hstep
  split at hstep
  · cases hstep
  next hcrashed =>
  rw [Bool.not_eq_true] at hcrashed
  cases a
  -- steps with a condition first; most of them only move a trusted thread from one list to another
  case' addThread | start | exit | acquire | acquireFree | attrFailed | createFailed | created |
      bindPthread | reset =>
    obtain ⟨hguard, hstep⟩ := ite_none_right_eq_some.mp hstep
    cases hstep
  case' addThread | start | exit | attrFailed | createFailed | created | bindPthread | reset =>
    refine ⟨?_, fun _ => hcrashed⟩
  case addThread => exact ⟨l, h.addThread hguard.1 _ _⟩
  case start | exit => exact ⟨l, { h with }⟩
  case acquire cmd seen => exact ⟨h.acquireThread cmd seen, by simp [Action.acquires]⟩
  case acquireFree seen =>
    obtain ⟨l', hk, hsame⟩ := h.acquireFreeThread seen
    exact ⟨⟨l', hk⟩, fun _ => hsame.trans hcrashed⟩
  case resume => exact ⟨h.resume hstep, by simp [Action.acquires]⟩
  case fill made =>
    cases hstep
    exact ⟨⟨l, h.mono (h.pool.fill made) rfl (TrustThreadPool.utilityThread_fill made) h.creating
      h.starting⟩, fun _ => hcrashed⟩
  case ret r =>
    dsimp only at hstep
    split at hstep
    · cases hstep
    split at hstep
    · cases hstep
    · cases hstep
      cases r <;> exact ⟨⟨l, h.mono { h.pool with } rfl rfl h.creating h.starting⟩, fun _ => hcrashed⟩
  case attrFailed =>
    exact ⟨l, h.mono h.pool rfl rfl (fun y hy => h.creating y (mem_of_mem_erase hy)) h.starting⟩
  case createFailed x =>
    exact ⟨l, h.mono { h.pool with all := forall_mem_cons.mpr ⟨h.creating x hguard, h.pool.all⟩ } rfl rfl
      (fun y hy => h.creating y (mem_of_mem_erase hy)) h.starting⟩
  case created x u =>
    exact ⟨l, h.mono h.pool rfl rfl (fun y hy => h.creating y (mem_of_mem_erase hy))
      (forall_mem_cons.mpr ⟨h.creating x hguard.1, h.starting⟩)⟩
  case bindPthread u x =>
    obtain ⟨l', hbind⟩ := h.pool.bind (t := threadId u) (h.starting _ hguard.1)
    exact ⟨l', h.mono hbind rfl rfl h.creating fun e he => h.starting e (mem_of_mem_erase he)⟩
  case reset =>
    exact ⟨[], h.mono h.pool.reset rfl TrustThreadPool.utilityThread_reset h.creating h.starting⟩

end Known

/-! ### Runs -/

/-- The threads of the process, the utility threads that were given up, the callers that are about to
end the enclave, and the threads whose control structures were trimmed. -/
structure Watched (U T X : Type) where
  state : State U T X
  givenUp : List X
  ending : List U
  trimmed : List X

def Watched.init (p : TrustThreadPool T X) : Watched U T X := ⟨State.init p, [], [], []⟩

/-- The threads that are not to be used any more. -/
def Watched.dead (w : Watched U T X) : List X := w.givenUp ++ w.trimmed

/-- `trim` is the loop of `CEnclave::ecall` in the call that ends the enclave; it stops after `n`
threads if an error occurs. -/
inductive Event (U T X : Type) where
  | pool (a : Action U T X)
  | trim (u : U) (n : ℕ)

/-- What a call takes from the pool to end the enclave. -/
def gives (s : State U T X) : Action U T X → List X
  | .acquire _ .uninit _ => s.pool.utilityThread.toList
  | _ => []

/-- The caller that ends the enclave. -/
def ends : Action U T X → List U
  | .acquire u .uninit _ => [u]
  | _ => []

/-- A step of the threads, or of the loop that trims; `edmm` if the memory of the enclave is
dynamic. -/
def watch [DecidableEq U] [DecidableEq T] [DecidableEq X] (threadId : U → T) (policy : Policy)
    (edmm : Bool) : Event U T X → Watched U T X → Option (Watched U T X)
  | .pool a, w =>
    (step threadId policy a w.state).map fun s' =>
      ⟨s', gives w.state a ++ w.givenUp, ends a ++ w.ending, w.trimmed⟩
  | .trim u n, w =>
    match w.state.calls u with
    | [] => none
    | y :: _ =>
      if edmm = true ∧ u ∈ w.ending then
        some { w with
          ending := w.ending.erase u
          trimmed := (w.state.pool.getThreadList.filter (· ≠ y)).take n ++ w.trimmed }
      else none

/-- No thread is free, bound to `t`, or to be collected. -/
def Exhausted (s : State U T X) (t : T) : Prop :=
  s.pool.freeThreadVector = [] ∧
    ∀ e ∈ s.pool.threadList.pairs, e.1 ≠ t ∧ s.pool.reference e.2 ≠ 0

/-- The enclave is not being ended, or the pool has nothing for the thread `t`. -/
def Watched.Open (w : Watched U T X) (t : T) : Prop := w.dead = [] ∨ Exhausted w.state t

/-- Without a utility thread no threads are left to make. -/
def Complete (s : State U T X) : Prop :=
  s.pool.utilityThread = none → s.pool.unallocatedThreads = []

/-- An ordinary call comes while there is a utility thread or nothing is left to make, and a call
that needs a thread of the pool comes before the enclave is ended or finds the pool exhausted. -/
def Safe (threadId : U → T) (w : Watched U T X) : Event U T X → Prop
  | .pool (.acquire u cmd _) =>
    (cmd = .other → Complete w.state) ∧
      (cmd = .other ∨ w.state.pool.utilityThread = none → w.Open (threadId u))
  | .pool (.resume _) =>
    ∀ e ∈ w.state.waiting, Complete w.state ∧ w.Open (threadId e.1)
  | _ => True

instance [DecidableEq T] [DecidableEq X] (threadId : U → T) (w : Watched U T X) (a : Event U T X) :
    Decidable (Safe threadId w a) := by
  match a with
  | .pool (.acquire ..) | .pool (.resume _) =>
    unfold Safe Complete Watched.Open Exhausted; infer_instance
  | .trim .. | .pool (.addThread ..) | .pool (.start _) | .pool (.exit _) | .pool (.acquireFree ..)
  | .pool (.fill _) | .pool (.ret ..) | .pool (.attrFailed _) | .pool (.createFailed _)
  | .pool (.created ..) | .pool (.bindPthread ..) | .pool .reset => exact .isTrue trivial

/-- A call of `u` gets a trusted thread that was neither given up nor trimmed; it waits, or gets none,
if `calls` is what it was. -/
def Gets [DecidableEq U] (w : Watched U T X) (u : U) (s' : State U T X) : Prop :=
  s'.calls = w.state.calls ∨
    ∃ x ∈ w.state.objects, x ∉ w.dead ∧
      s'.calls = Function.update w.state.calls u (x :: w.state.calls u)

variable {w w' : Watched U T X}

variable {r : Option X × TrustThreadPool T X}

/-- Nothing comes out of an exhausted pool. -/
theorem Exhausted.eq_none [DecidableEq X] (h : Exhausted s (threadId u)) (hk : Known g s l)
    (hr : TrustThreadPool.Acquired s.pool l (threadId u) r l') : r.1 = none := by
  obtain ⟨hfree, hlist⟩ := h
  rw [NodeList.pairs_eq hk.pool.rep] at hlist
  cases hr with
  | bound hx => exact absurd rfl (hlist _ hx).1
  | none => rfl
  | taken hq hq' =>
    -- it was collected, so it is in the list without a reference
    obtain ⟨hbound, href⟩ := hq.reference_eq_zero hk.pool.keys (hq' ▸ mem_cons_self) (by simp [hfree])
    obtain ⟨e, he, rfl⟩ := List.mem_map.mp hbound
    exact absurd href (hlist e he).2

/-- What comes out of the pool is alive. -/
theorem Watched.Open.not_mem [DecidableEq X] (h : w.Open (threadId u)) (hk : Known g w.state l)
    (hr : TrustThreadPool.Acquired w.state.pool l (threadId u) r l') :
    ∀ y, r.1 = some y → y ∉ w.dead := by
  intro y hy
  rcases h with h | h
  · simp [h]
  · cases hy.symm.trans (h.eq_none hk hr)

theorem gets_deliver [DecidableEq U] [DecidableEq X]
    (hr : ∀ x, r.1 = some x → x ∈ w.state.objects ∧ x ∉ w.dead) :
    Gets w u (w.state.deliver u r) := by
  obtain ⟨_ | x, q⟩ := r
  · exact .inl rfl
  · exact .inr ⟨x, (hr x rfl).1, (hr x rfl).2, rfl⟩

/-- Nothing is asked of a utility thread that is not there. -/
theorem crashed_refill (hcomplete : Complete s)
    (hunallocated : s'.pool.unallocatedThreads = s.pool.unallocatedThreads)
    (hutility : s'.pool.utilityThread = s.pool.utilityThread) (hcrashed : s'.crashed = false) :
    s'.refill.crashed = false := by
  rw [State.refill]
  cases hu : s'.pool.utilityThread with
  | some x => simp [hcrashed]
  | none =>
    have hnone := hcomplete (hutility ▸ hu)
    simp [hcrashed, TrustThreadPool.needToNewThread, hunallocated, hnone]

theorem crashed_deliver [DecidableEq U] [DecidableEq X] (s : State U T X)
    (r : Option X × TrustThreadPool T X) :
    (s.deliver u r).crashed = s.crashed ∧
      (s.deliver u r).pool.unallocatedThreads = r.2.unallocatedThreads ∧
      (s.deliver u r).pool.utilityThread = r.2.utilityThread := by
  obtain ⟨_ | x, q⟩ := r
  · exact ⟨rfl, rfl, rfl⟩
  · exact ⟨rfl, rfl, rfl⟩

variable [DecidableEq U] [DecidableEq T] [DecidableEq X]

variable (policy) in
/-- A call that looks into the pool. -/
theorem acquireOnce_safe (hk : Known w.dead w.state l) (hcrashed : w.state.crashed = false)
    (seen : List T) (hopen : w.Open (threadId u)) :
    Gets w u (w.state.deliver u (w.state.pool.acquireThreadOnce policy seen (threadId u))) ∧
      (Complete w.state → (w.state.deliver u
        (w.state.pool.acquireThreadOnce policy seen (threadId u))).refill.crashed = false) := by
  obtain ⟨l', honce⟩ := TrustThreadPool.acquireThreadOnce_spec (t := threadId u) policy seen
    hk.pool.rep hk.utility_ne
  have hordinary := (hk.pool.acquired honce).2
  have hnot := hopen.not_mem hk honce
  refine ⟨gets_deliver fun x hx => ⟨(hordinary x hx).1, hnot x hx⟩, ?_⟩
  intro hcomplete
  obtain ⟨hsame, hunallocated, hutility⟩ := crashed_deliver (u := u) w.state
    (w.state.pool.acquireThreadOnce policy seen (threadId u))
  exact crashed_refill hcomplete (hunallocated.trans honce.unallocated)
    (hutility.trans honce.utility) (hsame.trans hcrashed)

variable (policy) in
theorem acquireThread_safe {cmd : Cmd} {seen : List T} (hk : Known w.dead w.state l)
    (hcrashed : w.state.crashed = false) (hsafe : Safe threadId w (.pool (.acquire u cmd seen))) :
    (w.state.acquireThread threadId policy u cmd seen).crashed = false ∧
      Gets w u (w.state.acquireThread threadId policy u cmd seen) := by
  obtain ⟨hcomplete, hopen⟩ := hsafe
  rw [State.acquireThread.eq_def]
  dsimp only
  split
  iterate 2
    next x hx =>
    refine ⟨hcrashed, gets_deliver ?_⟩
    rintro y ⟨⟩
    exact hk.utility_not_given hx
  iterate 2
    next hnone =>
    exact ⟨(crashed_deliver _ _).1.trans hcrashed,
      (acquireOnce_safe policy hk hcrashed seen (hopen (.inr hnone))).1⟩
  · split
    · exact ⟨hcrashed, .inl rfl⟩
    · obtain ⟨hgets, hrefill⟩ := acquireOnce_safe policy hk hcrashed seen (hopen (.inl rfl))
      exact ⟨hrefill (hcomplete rfl), hgets⟩

theorem resume_safe {seen : List T} (hk : Known w.dead w.state l)
    (hcrashed : w.state.crashed = false) (hsafe : Safe threadId w (.pool (.resume seen)))
    (hstep : w.state.resume threadId policy seen = some s') :
    s'.crashed = false ∧ ∀ u, w.state.waiting = some (u, .thread) → Gets w u s' := by
  rw [State.resume] at hstep
  split at hstep
  · cases hstep
  split at hstep
  · cases hstep
  · next u hwaiting =>
    cases hstep
    obtain ⟨hcomplete, hopen⟩ := hsafe _ hwaiting
    let w₁ : Watched U T X := { w with state := { w.state with waiting := none } }
    have hk' : Known w₁.dead w₁.state l := { hk with }
    obtain ⟨hgets, hrefill⟩ := acquireOnce_safe policy hk' hcrashed seen hopen
    refine ⟨hrefill hcomplete, ?_⟩
    intro v hv
    rw [hwaiting] at hv
    cases hv
    exact hgets
  · next v hwaiting =>
    cases hstep
    refine ⟨?_, ?_⟩
    · exact crashed_handOut.trans hcrashed
    · intro u hu
      rw [hwaiting] at hu
      cases hu

variable {a : Action U T X}

/-- The call that ends the enclave leaves its trusted thread as one of the others. -/
theorem ordinary_of_gives (hk : Known g s l) (hstep : step threadId policy a s = some s') :
    ∀ x ∈ gives s a, s'.Ordinary x := by
  intro x hx
  rw [gives.eq_def] at hx
  split at hx
  · next u seen =>
    have hutility := mem_toList.mp hx
    rw [Threads.step.eq_def] at hstep
    dsimp only at hstep
    split at hstep
    · cases hstep
    obtain ⟨-, hstep⟩ := ite_none_right_eq_some.mp hstep
    cases hstep
    rw [State.acquireThread.eq_def, hutility]
    refine ⟨hk.utility x hutility, ?_⟩
    intro hnone
    cases hnone
  · cases hx

/-- What holds in every run: no call has used a utility thread that was not there. -/
structure Watched.Inv (w : Watched U T X) : Prop where
  known : ∃ l, Known w.dead w.state l
  crashed : w.state.crashed = false

variable {edmm : Bool}

/-- What is trimmed is in the pool. -/
theorem Watched.Inv.trim {n : ℕ} (h : w.Inv)
    (hstep : watch threadId policy edmm (.trim u n) w = some w') : w'.Inv := by
  rw [watch] at hstep
  split at hstep
  · cases hstep
  next y _ _ =>
  obtain ⟨-, hstep⟩ := ite_none_right_eq_some.mp hstep
  cases hstep
  obtain ⟨l, hk⟩ := h.known
  refine ⟨⟨l, { hk with given := ?_ }⟩, h.crashed⟩
  intro x hx
  rcases mem_append.mp hx with hx | hx
  · exact hk.given x (mem_append_left _ hx)
  rcases mem_append.mp hx with hx | hx
  · have hmem := mem_of_mem_filter (mem_of_mem_take hx)
    rw [TrustThreadPool.getThreadList, NodeList.values_eq hk.pool.rep, mem_append, mem_reverse,
      ← mem_append] at hmem
    exact hk.pool.all x (mem_append_left _ hmem)
  · exact hk.given x (mem_append_right _ hx)

theorem Watched.Inv.step {e : Event U T X} (h : w.Inv)
    (hstep : only (Safe threadId) (watch threadId policy edmm) e w = some w') :
    w'.Inv ∧ (∀ u cmd seen, e = .pool (.acquire u cmd seen) → Gets w u w'.state) ∧
      ∀ seen u, e = .pool (.resume seen) → w.state.waiting = some (u, .thread) →
        Gets w u w'.state := by
  obtain ⟨hsafe, hwatch⟩ := only_eq_some.mp hstep
  cases e with
  | trim u n => exact ⟨h.trim hwatch, nofun, nofun⟩
  | pool a =>
    obtain ⟨s', hs, rfl⟩ := map_eq_some_iff.mp hwatch
    obtain ⟨l, hk⟩ := h.known
    obtain ⟨⟨l', hk'⟩, hother⟩ := hk.step hs
    have hknown : ∃ l', Known (gives w.state a ++ w.givenUp ++ w.trimmed) s' l' := by
      refine ⟨l', { hk' with given := ?_ }⟩
      intro x hx
      rw [append_assoc] at hx
      rcases mem_append.mp hx with hx | hx
      · exact ordinary_of_gives hk hs x hx
      · exact hk'.given x hx
    have hcrashed := h.crashed
    cases a with
    | acquire u cmd seen =>
      rw [Threads.step, if_neg (by simp [hcrashed])] at hs
      obtain ⟨-, hs⟩ := ite_none_right_eq_some.mp hs
      cases hs
      obtain ⟨hsafe, hgets⟩ := acquireThread_safe policy hk hcrashed hsafe
      refine ⟨⟨hknown, hsafe⟩, ?_, nofun⟩
      rintro u cmd seen ⟨⟩
      exact hgets
    | resume seen =>
      rw [Threads.step, if_neg (by simp [hcrashed])] at hs
      obtain ⟨hsafe, hgets⟩ := resume_safe hk hcrashed hsafe hs
      refine ⟨⟨hknown, hsafe⟩, nofun, ?_⟩
      rintro seen u ⟨⟩
      exact hgets u
    | _ => exact ⟨⟨hknown, hother rfl⟩, nofun, nofun⟩

theorem Watched.inv_of_run {p : TrustThreadPool T X} {es : List (Event U T X)} (hp : Fresh p)
    (hrun : run (only (Safe threadId) (watch threadId policy edmm)) es (.init p) = some w) :
    w.Inv := by
  refine invariant_of_run (fun _ _ _ h hstep => (h.step hstep).1) hrun ⟨⟨[], ?_⟩, rfl⟩
  refine ⟨⟨⟨[], ⟨hp.list, nodup_nil, nofun⟩, rfl⟩, nodup_nil, ?_⟩, nofun, nofun, nofun, ?_⟩
  · simp [Watched.init, State.init, hp.free, hp.unallocated]
  · simp [Watched.init, State.init, hp.utility]

/-- **Calls never use a utility thread that was given up.**  In every run in which ordinary calls come
while there is a utility thread or no more threads to make, and in which calls that need a thread of
the pool come before the enclave is ended or find the pool exhausted, `acquire_thread` looks at no
utility thread that is not there, and each call gets an object of the pool that was neither given up nor
trimmed, or none. -/
theorem utility_thread_safe {p : TrustThreadPool T X} {es : List (Event U T X)} (hp : Fresh p)
    (hrun : run (only (Safe threadId) (watch threadId policy edmm)) es (.init p) = some w) :
    w.state.crashed = false ∧
    ∀ e w', only (Safe threadId) (watch threadId policy edmm) e w = some w' →
      w'.state.crashed = false ∧
      (∀ u cmd seen, e = .pool (.acquire u cmd seen) → Gets w u w'.state) ∧
      ∀ seen u, e = .pool (.resume seen) → w.state.waiting = some (u, .thread) →
        Gets w u w'.state := by
  have h := Watched.inv_of_run hp hrun
  refine ⟨h.crashed, ?_⟩
  intro e w' hstep
  obtain ⟨h', hacquire, hresume⟩ := h.step hstep
  exact ⟨h'.crashed, hacquire, hresume⟩

end Model

/-- The enclave is ended on its utility thread 100 while thread 2 is in a call on 101. -/
def endedEnclave : List (Event ℕ ℕ ℕ) :=
  [.pool (.addThread 100 false true), .pool (.addThread 101 false true), .pool (.start 1),
    .pool (.start 2), .pool (.start 3), .pool (.acquire 1 .init [1, 2, 3]), .pool (.ret 1 .done),
    .pool (.acquire 2 .other [1, 2, 3]), .pool (.acquire 1 .uninit [1, 2, 3]), .trim 1 5]

/-- What thread 3 finds then. -/
theorem utility_thread_safe_endedEnclave :
    ∃ w w', run (only (Safe digit) (watch digit .bind true)) endedEnclave (.init newPool) = some w ∧
      w.givenUp = [100] ∧ w.trimmed = [101] ∧ w.state.calls 2 = [101] ∧
      only (Safe digit) (watch digit .bind true) (.pool (.acquire 3 .other [1, 2, 3])) w = some w' ∧
      Gets w 3 w'.state := by
  have hval : ((run (only (Safe digit) (watch digit .bind true)) endedEnclave (.init newPool)).bind
      fun w => (only (Safe digit) (watch digit .bind true) (.pool (.acquire 3 .other [1, 2, 3])) w).map
        fun _ => (w.givenUp, w.trimmed, w.state.calls 2)) = some ([100], [101], [101]) := by
    decide +kernel
  obtain ⟨w, hrun, hw⟩ := bind_eq_some_iff.mp hval
  obtain ⟨w', hstep, hdead⟩ := map_eq_some_iff.mp hw
  simp only [Prod.mk.injEq] at hdead
  have hsafe := (utility_thread_safe newPool_fresh hrun).2 _ _ hstep
  exact ⟨w, w', hrun, hdead.1, hdead.2.1, hdead.2.2, hstep, hsafe.2.1 3 .other [1, 2, 3] rfl⟩

/-- **A call after the last one.**  The utility thread was given up, thread 102 is still to be made,
and a call takes the last free thread: `acquire_thread` asks the utility thread for more. -/
theorem utility_thread_null :
    ∃ s, run (step digit .bind)
      [.addThread 100 false true, .addThread 101 false true, .addThread 102 true true, .start 1, .start 2,
        .acquire 1 .uninit [1, 2], .acquire 2 .other [1, 2]] (State.init newPool) = some s ∧
      s.pool.utilityThread = none ∧ s.crashed = true := by
  have hval : (run (step digit .bind)
      [.addThread 100 false true, .addThread 101 false true, .addThread 102 true true, .start 1, .start 2,
        .acquire 1 .uninit [1, 2], .acquire 2 .other [1, 2]] (State.init newPool)).map
      (fun s => (s.pool.utilityThread, s.crashed)) = some (none, true) := by
    decide +kernel
  obtain ⟨s, hrun, hs⟩ := map_eq_some_iff.mp hval
  simp only [Prod.mk.injEq] at hs
  exact ⟨s, hrun, hs⟩

end Threads

end Urts
