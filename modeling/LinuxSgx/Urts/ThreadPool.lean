/-
The pool of trusted threads of an enclave (`tcs.cpp`).

A trusted thread is free, or in the list of threads under the identifier of the untrusted thread
that uses it, or its control structure has not been made yet, or it is the one with which the
runtime makes control structures.

* `TrustThreadPool` — the vectors, the list and the reference counts, with the functions of
  the class as they are;
* `Collected` — the free threads and the list before and after a garbage collection;
* **`acquireFreeThreadOnce_spec`**, **`acquireThreadOnce_spec`** — a thread comes out of the list
  or out of the free ones, after a collection if there were none.

The back of a vector is the head of its list here.
-/
import LinuxSgx.Urts.Node


namespace Urts

/-- `CThreadPoolBindMode` and `CThreadPoolUnBindMode`. -/
inductive Policy where
  | bind
  | unbind
  deriving DecidableEq

/-- `CTrustThreadPool` with the `m_reference` of its trusted threads. -/
structure TrustThreadPool (T X : Type) where
  freeThreadVector : List X
  unallocatedThreads : List X
  threadList : NodeList T X
  utilityThread : Option X
  tcsMinPool : ℕ
  needToWaitForNewThread : Bool
  reference : X → ℤ

namespace TrustThreadPool

section Model

variable {T X : Type} [DecidableEq T] [DecidableEq X]

def setRef (p : TrustThreadPool T X) (x : X) (r : ℤ) : TrustThreadPool T X :=
  { p with reference := Function.update p.reference x r }

def increaseRef (p : TrustThreadPool T X) (x : X) : TrustThreadPool T X :=
  p.setRef x (p.reference x + 1)

def decreaseRef (p : TrustThreadPool T X) (x : X) : TrustThreadPool T X :=
  p.setRef x (p.reference x - 1)

def resetRef (p : TrustThreadPool T X) (x : X) : TrustThreadPool T X := p.setRef x 0

def addToFreeThreadVector (p : TrustThreadPool T X) (x : X) : TrustThreadPool T X :=
  { p with freeThreadVector := x :: p.freeThreadVector }

def getFreeThread (p : TrustThreadPool T X) : Option X × TrustThreadPool T X :=
  match p.freeThreadVector with
  | [] => (none, p)
  | x :: free => (some x, { p with freeThreadVector := free })

/-- `bind_thread`: false if the identifier is in the list already. -/
def bindThread (p : TrustThreadPool T X) (t : T) (x : X) : TrustThreadPool T X × Bool :=
  let r := p.threadList.bind t x
  ({ p with threadList := r.1 }, r.2)

def unbindThread (p : TrustThreadPool T X) (t : T) : TrustThreadPool T X :=
  match p.threadList.unbind t with
  | (n, none) => { p with threadList := n }
  | (n, some x) => (resetRef { p with threadList := n } x).addToFreeThreadVector x

def getBoundThread (p : TrustThreadPool T X) (t : T) : Option X := p.threadList.findValue t

/-- `add_thread` for a new object; `dynamic` says that pages can be added at run time and that the
enclave has dynamic threads. -/
def addThread (p : TrustThreadPool T X) (x : X) (isUnallocated dynamic : Bool) :
    TrustThreadPool T X :=
  let p := p.resetRef x
  if isUnallocated then { p with unallocatedThreads := x :: p.unallocatedThreads }
  else if dynamic ∧ p.utilityThread = none then { p with utilityThread := some x }
  else p.addToFreeThreadVector x

def getThreadList (p : TrustThreadPool T X) : List X :=
  p.freeThreadVector.reverse ++ p.threadList.values

/-- `reset`: everything in the list becomes free. -/
def reset (p : TrustThreadPool T X) : TrustThreadPool T X :=
  p.threadList.values.foldl (fun p x => (p.resetRef x).addToFreeThreadVector x)
    { p with threadList := p.threadList.clear }

/-- What a garbage collection takes; `seen` are the threads of the process it knows about. -/
def isCollectable (p : TrustThreadPool T X) (policy : Policy) (seen : List T) (t : T) (x : X) :
    Bool :=
  match policy with
  | .bind => decide (t ∉ seen) && decide (p.reference x = 0)
  | .unbind => decide (p.reference x = 0)

/-- `garbage_collect`, with the number of threads that became free. -/
def garbageCollect (p : TrustThreadPool T X) (policy : Policy) (seen : List T) :
    ℕ × TrustThreadPool T X :=
  let r := p.threadList.collect (p.isCollectable policy seen)
  (r.2.length,
    { p with threadList := r.1, freeThreadVector := r.2.reverse ++ p.freeThreadVector })

/-- `_acquire_free_thread`. -/
def acquireFreeThreadOnce (p : TrustThreadPool T X) (policy : Policy) (seen : List T) :
    Option X × TrustThreadPool T X :=
  match p.getFreeThread with
  | (some x, q) => (some x, q)
  | (none, _) =>
    let r := p.garbageCollect policy seen
    if r.1 = 0 then (none, r.2) else r.2.getFreeThread

/-- `_acquire_thread` in the thread with the identifier `t`. -/
def acquireThreadOnce (p : TrustThreadPool T X) (policy : Policy) (seen : List T) (t : T) :
    Option X × TrustThreadPool T X :=
  let r := p.acquireFreeThreadOnce policy seen
  let fromFree := match r.1 with
    | none => r
    | some x => (some x, (r.2.bindThread t x).1)
  match p.getBoundThread t with
  | none => fromFree
  | some x => if p.utilityThread = some x then fromFree else (some x, p)

def needToNewThread (p : TrustThreadPool T X) : Bool :=
  if p.unallocatedThreads = [] then false
  else if p.tcsMinPool = 0 ∧ p.freeThreadVector.length > p.tcsMinPool then false
  else if p.tcsMinPool ≠ 0 ∧ p.freeThreadVector.length ≥ p.tcsMinPool then false
  else true

/-- `new_thread`; `made` says that the enclave has made the control structure. -/
def newThread (p : TrustThreadPool T X) (made : Bool) : TrustThreadPool T X :=
  if p.utilityThread = none then p
  else
    match p.unallocatedThreads with
    | [] => p
    | x :: rest =>
      if made then { p.addToFreeThreadVector x with unallocatedThreads := rest } else p

/-- One round of `fill_tcs_mini_pool`. -/
def fillTcsMiniPool (p : TrustThreadPool T X) (made : Bool) : TrustThreadPool T X :=
  { (if p.needToNewThread then p.newThread made else p) with needToWaitForNewThread := false }

end Model

/-! ### Garbage collection -/

variable {T X : Type} {p q : TrustThreadPool T X} {l l' : List (T × X)} {t : T} {x : X} {policy : Policy}
  {seen : List T}

/-- Some threads of the list without a reference became free, and nothing else happened. -/
structure Collected (p q : TrustThreadPool T X) (l l' : List (T × X)) : Prop where
  rep : q.threadList.Rep l'
  perm : (q.freeThreadVector ++ l'.map Prod.snd).Perm (p.freeThreadVector ++ l.map Prod.snd)
  sublist : l'.Sublist l
  kept : ∀ e ∈ l, p.reference e.2 ≠ 0 → e ∈ l'
  unallocated : q.unallocatedThreads = p.unallocatedThreads
  utility : q.utilityThread = p.utilityThread
  reference : q.reference = p.reference

theorem Collected.refl (h : p.threadList.Rep l) : Collected p p l l :=
  ⟨h, List.Perm.refl _, List.Sublist.refl _, fun _ he _ => he, rfl, rfl, rfl⟩

theorem isCollectable_eq_false [DecidableEq T] (h : p.reference x ≠ 0) :
    p.isCollectable policy seen t x = false := by
  cases policy with
  | bind | unbind => simp [isCollectable, h]

theorem garbageCollect_spec [DecidableEq T] (policy : Policy) (seen : List T)
    (h : p.threadList.Rep l) :
    ∃ l', Collected p (p.garbageCollect policy seen).2 l l' := by
  obtain ⟨hvalues, hrep⟩ := @NodeList.collect_spec _ _ _ _ (p.isCollectable policy seen) h
  refine ⟨_, hrep, ?_, List.filter_sublist, ?_, rfl, rfl, rfl⟩
  · show ((p.threadList.collect (p.isCollectable policy seen)).2.reverse ++ p.freeThreadVector
      ++ _).Perm _
    rw [hvalues, List.append_assoc]
    -- what was taken and what was kept are all of the list
    have hsplit := List.filter_append_perm (fun e : T × X => p.isCollectable policy seen e.1 e.2) l
    have hall := hsplit.map Prod.snd
    rw [List.map_append] at hall
    refine (List.Perm.append_right _ (List.reverse_perm _)).trans ?_
    refine (List.perm_append_comm_assoc ..).trans ?_
    exact List.Perm.append_left _ hall
  · intro e he href
    refine List.mem_filter.mpr ⟨he, ?_⟩
    rw [isCollectable_eq_false href]
    rfl

/-! ### Acquiring a thread -/

/-- After a collection there was no free thread, or the last one was taken. -/
inductive Taken (p : TrustThreadPool T X) (l : List (T × X)) :
    Option X × TrustThreadPool T X → List (T × X) → Prop where
  | none {q : TrustThreadPool T X} {l' : List (T × X)} : Collected p q l l' → Taken p l (none, q) l'
  | some {q : TrustThreadPool T X} {l' : List (T × X)} {x : X} {free : List X} :
    Collected p q l l' → q.freeThreadVector = x :: free →
      Taken p l (some x, { q with freeThreadVector := free }) l'

theorem Collected.taken (h : Collected p q l l') : Taken p l q.getFreeThread l' := by
  rw [getFreeThread]
  split
  · exact Taken.none h
  · next x free hfree => exact Taken.some h hfree

theorem acquireFreeThreadOnce_spec [DecidableEq T] (policy : Policy) (seen : List T)
    (h : p.threadList.Rep l) :
    ∃ l', Taken p l (p.acquireFreeThreadOnce policy seen) l' := by
  have htaken := (Collected.refl h).taken
  rw [acquireFreeThreadOnce]
  split
  · next x q hfree => exact ⟨l, hfree ▸ htaken⟩
  · obtain ⟨l', hcollected⟩ := garbageCollect_spec policy seen h
    dsimp only
    split
    · exact ⟨l', Taken.none hcollected⟩
    · exact ⟨l', hcollected.taken⟩

/-- The thread in the list, or a free one that is in the list from now on. -/
inductive Acquired (p : TrustThreadPool T X) (l : List (T × X)) (t : T) :
    Option X × TrustThreadPool T X → List (T × X) → Prop where
  | bound {x : X} : (t, x) ∈ l → Acquired p l t (some x, p) l
  | none {q : TrustThreadPool T X} {l' : List (T × X)} :
    Collected p q l l' → Acquired p l t (none, q) l'
  | taken {q : TrustThreadPool T X} {l' : List (T × X)} {x : X} {free : List X} {n : NodeList T X} :
    Collected p q l l' → q.freeThreadVector = x :: free → t ∉ l.map Prod.fst →
      n.Rep (NodeList.insertSecond (t, x) l') →
      Acquired p l t (some x, { q with freeThreadVector := free, threadList := n })
        (NodeList.insertSecond (t, x) l')

theorem acquireThreadOnce_spec [DecidableEq T] [DecidableEq X] (policy : Policy) (seen : List T)
    (h : p.threadList.Rep l)
    (hutility : ∀ x ∈ l.map Prod.snd, p.utilityThread ≠ some x) :
    ∃ l', Acquired p l t (p.acquireThreadOnce policy seen t) l' := by
  cases hbound : p.getBoundThread t with
  | some x =>
    have hmem := NodeList.mem_of_findValue h hbound
    have hresult : p.acquireThreadOnce policy seen t = (some x, p) := by
      rw [acquireThreadOnce, hbound]
      exact if_neg (hutility x (List.mem_map.mpr ⟨_, hmem, rfl⟩))
    exact ⟨l, hresult ▸ Acquired.bound hmem⟩
  | none =>
    have ht := (NodeList.findValue_eq_none h).mp hbound
    obtain ⟨l', htaken⟩ := acquireFreeThreadOnce_spec policy seen h
    rw [acquireThreadOnce, hbound]
    dsimp only
    generalize p.acquireFreeThreadOnce policy seen = r at htaken
    cases htaken with
    | none hcollected => exact ⟨l', Acquired.none hcollected⟩
    | @some q l' x free hcollected hfree =>
      -- the collection has added no identifier, so that the new one can be bound
      have ht' : t ∉ l'.map Prod.fst := fun hmem => ht ((hcollected.sublist.map _).mem hmem)
      have hbind := NodeList.bind_spec (k := t) (v := x) hcollected.rep
      rw [if_neg ht'] at hbind
      exact ⟨_, @Acquired.taken _ _ p l t q l' x free _ hcollected hfree ht hbind.2⟩

end TrustThreadPool

end Urts
