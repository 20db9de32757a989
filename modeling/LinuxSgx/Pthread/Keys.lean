/-
Keys for data of threads (`pthread_tls.cpp`).

The keys are the indices of a table that says which of them are in use; every thread has a list of
nodes with a key and a value of its own.  Deleting a key does not touch the lists.

* `Keys`, `pthreadKeyCreate`, `pthreadKeyDelete`, `pthreadGetspecific`, `pthreadSetspecific` — the
  table, the lists and the functions of the source;
* `History` — in addition, what each thread has set since a key was created;
* **`key_values`** — a key reads as it was last set since its creation, NULL before, provided
  that (`Clean`) a key is created when no thread has a value left for an unused one;
* **`stale_value`** — otherwise a new key may come with the value of an old one.
-/
import LinuxSgx.Lib.Runs
import Mathlib.Data.Fintype.Pi


open Runs Function List

namespace Pthread

/-- `PTHREAD_KEYS_MAX`. -/
def keysMax : ℕ := 256

inductive KeyError where
  | einval
  | eagain
  | enomem
  deriving DecidableEq

/-- `rkeys` and `hint`, and the lists `m_local_storage` of the threads; a pointer is a number, and
NULL is 0.  The destructors are user code and are left out. -/
structure Keys (T : Type) where
  used : ℕ → Bool
  hint : ℕ
  localStorage : T → List (ℕ × UInt64)

namespace Keys

variable {T : Type} {s : Keys T} {t : T} {key : ℕ} {calloc : Bool}

def init : Keys T := ⟨fun _ => false, 0, fun _ => []⟩

/-- The entry that `pthread_key_create` takes: `rkeys[hint]`, or the first one that is free. -/
def freeKey (s : Keys T) : Option ℕ :=
  if s.used s.hint then (range keysMax).find? fun i => !s.used i else some s.hint

/-- `pthread_key_create`; `within` says that the result can be stored in the enclave. -/
def pthreadKeyCreate (s : Keys T) (within : Bool) : Except KeyError ℕ × Keys T :=
  if within = false then (.error .einval, s)
  else
    match s.freeKey with
    | none => (.error .eagain, s)
    | some i =>
      (.ok i, { s with
        used := Function.update s.used i true
        hint := if i + 1 ≥ keysMax then 0 else i + 1 })

/-- `pthread_key_delete`. -/
def pthreadKeyDelete (s : Keys T) (key : ℤ) : Except KeyError Unit × Keys T :=
  if key < 0 ∨ key ≥ keysMax then (.error .einval, s)
  else if s.used key.toNat = false then (.error .einval, s)
  else (.ok (), { s with used := Function.update s.used key.toNat false })

/-- The node of a thread for a key, as its value. -/
def node (s : Keys T) (t : T) (key : ℕ) : Option UInt64 := (s.localStorage t).lookup key

/-- `_pthread_findstorage`; without a result there is no node. -/
def findStorage [DecidableEq T] (s : Keys T) (t : T) (key : ℕ) (calloc : Bool) : Option (Keys T) :=
  if s.used key = false then none
  else if (s.node t key).isSome then some s
  else if calloc then
    some { s with localStorage := Function.update s.localStorage t ((key, 0) :: s.localStorage t) }
  else none

/-- `pthread_getspecific` in the thread `t`. -/
def pthreadGetspecific [DecidableEq T] (s : Keys T) (t : T) (key : ℤ) (calloc : Bool) :
    UInt64 × Keys T :=
  if key < 0 ∨ key ≥ keysMax then (0, s)
  else
    match s.findStorage t key.toNat calloc with
    | none => (0, s)
    | some s' => ((s'.node t key.toNat).getD 0, s')

/-- The value of the first node with the key is replaced. -/
def setData (key : ℕ) (data : UInt64) : List (ℕ × UInt64) → List (ℕ × UInt64)
  | [] => []
  | n :: l => if n.1 = key then (key, data) :: l else n :: setData key data l

/-- `pthread_setspecific` in the thread `t`. -/
def pthreadSetspecific [DecidableEq T] (s : Keys T) (t : T) (key : ℤ) (data : UInt64)
    (calloc : Bool) :
    Except KeyError Unit × Keys T :=
  if key < 0 ∨ key ≥ keysMax then (.error .einval, s)
  else
    match s.findStorage t key.toNat calloc with
    | none => (.error .enomem, s)
    | some s' =>
      (.ok (), { s' with
        localStorage := Function.update s'.localStorage t (setData key.toNat data (s'.localStorage t)) })

/-- The end of `_pthread_tls_destructors`, when the thread is over. -/
def tlsDestructors [DecidableEq T] (s : Keys T) (t : T) : Keys T :=
  { s with localStorage := Function.update s.localStorage t [] }

/-- What a thread finds under a key, whether or not the key is in use. -/
def value (s : Keys T) (t : T) (key : ℕ) : UInt64 := (s.node t key).getD 0

/-! ### What the functions do to the values -/

theorem freeKey_eq_none (h : s.freeKey = none) : ∀ i < keysMax, s.used i = true := by
  intro i hi
  rw [freeKey] at h
  split at h
  · have hall := find?_eq_none.mp h i (mem_range.mpr hi)
    simpa using hall
  · cases h

theorem freeKey_eq_some (hint : s.hint < keysMax) (h : s.freeKey = some key) :
    key < keysMax ∧ s.used key = false := by
  rw [freeKey] at h
  split at h
  · refine ⟨mem_range.mp (mem_of_find?_eq_some h), ?_⟩
    have hfound := find?_some h
    simpa using hfound
  · next hfree =>
    cases h
    exact ⟨hint, Bool.eq_false_of_not_eq_true hfree⟩

theorem lookup_setData {data : UInt64} {l : List (ℕ × UInt64)} (h : (l.lookup key).isSome) (k : ℕ) :
    (setData key data l).lookup k = if k = key then some data else l.lookup k := by
  induction l with
  | nil => simp at h
  | cons n l ih =>
    rw [setData]
    by_cases hn : n.1 = key
    · rw [if_pos hn, lookup_cons, lookup_cons, hn]
      by_cases hk : k = key
      · simp [hk]
      · rw [beq_false_of_ne hk, if_neg hk]
    · have hrest : (l.lookup key).isSome := by
        rw [lookup_cons, beq_false_of_ne (Ne.symm hn)] at h
        exact h
      rw [if_neg hn, lookup_cons, lookup_cons, ih hrest]
      by_cases hk : k = n.1
      · simp [hk, hn]
      · rw [beq_false_of_ne hk]

/-- A new node has the value NULL, which is what a missing one counts as. -/
theorem findStorage_spec [DecidableEq T] {s' : Keys T} (h : s.findStorage t key calloc = some s') :
    s'.used = s.used ∧ s'.hint = s.hint ∧ (s'.node t key).isSome ∧ ∀ u k, s'.value u k = s.value u k := by
  rw [findStorage] at h
  split_ifs at h with hused hnode hcalloc
  · cases h
    exact ⟨rfl, rfl, hnode, fun _ _ => rfl⟩
  · cases h
    refine ⟨rfl, rfl, by simp [node], ?_⟩
    intro u k
    by_cases hu : u = t
    · subst hu
      have hnone : (s.localStorage u).lookup key = none := Option.not_isSome_iff_eq_none.mp hnode
      simp only [value, node, update_self, lookup_cons]
      by_cases hk : k = key
      · simp [hk, hnone]
      · rw [beq_false_of_ne hk]
    · simp only [value, node, update_of_ne hu]

end Keys

/-! ### Histories -/

/-- The keys, and the last value that each thread has set since a key was created. -/
structure History (T : Type) where
  keys : Keys T
  last : T → ℕ → Option UInt64

inductive KeyOp (T : Type) where
  | create (within : Bool)
  | delete (key : ℤ)
  | set (t : T) (key : ℤ) (data : UInt64) (calloc : Bool)
  | get (t : T) (key : ℤ) (calloc : Bool)
  | exit (t : T)

namespace History

variable {T : Type} {h h' : History T} {t : T}

def init : History T := ⟨.init, fun _ _ => none⟩

/-- Nobody has set a new key. -/
def created (last : T → ℕ → Option UInt64) : Except KeyError ℕ → T → ℕ → Option UInt64
  | .ok key, t => Function.update (last t) key none
  | .error _, t => last t

def wasSet [DecidableEq T] (last : T → ℕ → Option UInt64) (t : T) (key : ℤ) (data : UInt64) :
    Except KeyError Unit → T → ℕ → Option UInt64
  | .ok _ => Function.update last t (Function.update (last t) key.toNat (some data))
  | .error _ => last

def step [DecidableEq T] : KeyOp T → History T → Option (History T)
  | .create within, h =>
    let r := h.keys.pthreadKeyCreate within
    some ⟨r.2, created h.last r.1⟩
  | .delete key, h => some { h with keys := (h.keys.pthreadKeyDelete key).2 }
  | .set t key data calloc, h =>
    let r := h.keys.pthreadSetspecific t key data calloc
    some ⟨r.2, wasSet h.last t key data r.1⟩
  | .get t key calloc, h => some { h with keys := (h.keys.pthreadGetspecific t key calloc).2 }
  | .exit t, h => some ⟨h.keys.tlsDestructors t, Function.update h.last t fun _ => none⟩

/-- A key is created when no thread has a value left under an unused one. -/
def Clean (h : History T) : KeyOp T → Prop
  | .create _ => ∀ key < keysMax, h.keys.used key = false → ∀ t, h.keys.value t key = 0
  | _ => True

instance [Fintype T] (h : History T) (op : KeyOp T) : Decidable (Clean h op) := by
  cases op <;> unfold Clean <;> infer_instance

/-- A key in use reads as it was last set. -/
structure Inv (h : History T) : Prop where
  hint : h.keys.hint < keysMax
  reads : ∀ t key, key < keysMax → h.keys.used key = true →
    h.keys.value t key = (h.last t key).getD 0

theorem inv_init : Inv (init : History T) where
  hint := Nat.zero_lt_succ 255
  reads t key _ hused := by cases hused

theorem Inv.create (hi : Inv h) (within : Bool) (hclean : Clean h (.create within)) :
    Inv ⟨(h.keys.pthreadKeyCreate within).2, created h.last (h.keys.pthreadKeyCreate within).1⟩ := by
  rw [Keys.pthreadKeyCreate]
  split_ifs
  · exact ⟨hi.hint, hi.reads⟩
  · cases hfree : h.keys.freeKey with
    | none => exact ⟨hi.hint, hi.reads⟩
    | some i =>
      obtain ⟨hlt, hunused⟩ := Keys.freeKey_eq_some hi.hint hfree
      refine ⟨?_, ?_⟩
      · show (if i + 1 ≥ keysMax then 0 else i + 1) < keysMax
        split_ifs with hend
        · decide
        · omega
      · intro t key hkey hused
        show h.keys.value t key = (update (h.last t) i none key).getD 0
        by_cases hki : key = i
        · -- the new key: nobody has set it, and no value is left
          rw [hki, update_self]
          exact hclean i hlt hunused t
        · rw [update_of_ne hki]
          have hold : update h.keys.used i true key = true := hused
          rw [update_of_ne hki] at hold
          exact hi.reads t key hkey hold

theorem Inv.delete (hi : Inv h) (key : ℤ) :
    Inv { h with keys := (h.keys.pthreadKeyDelete key).2 } := by
  rw [Keys.pthreadKeyDelete]
  split_ifs
  · exact hi
  · exact hi
  · refine ⟨hi.hint, ?_⟩
    intro t k hk hused
    have hold : update h.keys.used key.toNat false k = true := hused
    by_cases heq : k = key.toNat
    · rw [heq, update_self] at hold
      cases hold
    · rw [update_of_ne heq] at hold
      exact hi.reads t k hk hold

variable [DecidableEq T]

/-- Looking for a node changes no value. -/
theorem Inv.found {s : Keys T} {key : ℕ} {calloc : Bool} (hi : Inv h)
    (hfind : h.keys.findStorage t key calloc = some s) : Inv { h with keys := s } := by
  obtain ⟨hused, hhint, -, hvalue⟩ := Keys.findStorage_spec hfind
  refine ⟨?_, ?_⟩
  · show s.hint < keysMax
    rw [hhint]
    exact hi.hint
  · intro u k hk hk'
    show s.value u k = (h.last u k).getD 0
    rw [hvalue u k]
    exact hi.reads u k hk (hused ▸ hk')

theorem Inv.get (hi : Inv h) (t : T) (key : ℤ) (calloc : Bool) :
    Inv { h with keys := (h.keys.pthreadGetspecific t key calloc).2 } := by
  rw [Keys.pthreadGetspecific]
  split_ifs
  · exact hi
  · cases hfind : h.keys.findStorage t key.toNat calloc with
    | none => exact hi
    | some s' => exact hi.found hfind

theorem Inv.set (hi : Inv h) (t : T) (key : ℤ) (data : UInt64) (calloc : Bool) :
    Inv ⟨(h.keys.pthreadSetspecific t key data calloc).2,
      wasSet h.last t key data (h.keys.pthreadSetspecific t key data calloc).1⟩ := by
  rw [Keys.pthreadSetspecific]
  split_ifs
  · exact ⟨hi.hint, hi.reads⟩
  · cases hfind : h.keys.findStorage t key.toNat calloc with
    | none => exact ⟨hi.hint, hi.reads⟩
    | some s' =>
      obtain ⟨-, -, hnode, -⟩ := Keys.findStorage_spec hfind
      have hfound := hi.found hfind
      refine ⟨hfound.hint, ?_⟩
      intro u k hk hused
      have hold : s'.value u k = (h.last u k).getD 0 := hfound.reads u k hk hused
      simp only [Keys.value, Keys.node, wasSet] at hold hnode ⊢
      by_cases hu : u = t
      · subst hu
        rw [update_self, update_self, Keys.lookup_setData hnode]
        by_cases hkey : k = key.toNat
        · rw [if_pos hkey, hkey, update_self]
        · rw [if_neg hkey, update_of_ne hkey]
          exact hold
      · rw [update_of_ne hu, update_of_ne hu]
        exact hold

theorem Inv.exit (hi : Inv h) (t : T) :
    Inv ⟨h.keys.tlsDestructors t, update h.last t fun _ => none⟩ := by
  refine ⟨hi.hint, ?_⟩
  intro u k hk hused
  have hold := hi.reads u k hk hused
  simp only [Keys.value, Keys.node, Keys.tlsDestructors] at hold ⊢
  by_cases hu : u = t
  · rw [hu, update_self, update_self]
    rfl
  · rw [update_of_ne hu, update_of_ne hu]
    exact hold

/-- **The step lemma.** -/
theorem Inv.step {op : KeyOp T} (hi : Inv h) (hclean : Clean h op)
    (hstep : History.step op h = some h') : Inv h' := by
  cases op with
  | create within =>
    cases hstep
    exact hi.create within hclean
  | delete key =>
    cases hstep
    exact hi.delete key
  | set t key data calloc =>
    cases hstep
    exact hi.set t key data calloc
  | get t key calloc =>
    cases hstep
    exact hi.get t key calloc
  | exit t =>
    cases hstep
    exact hi.exit t

theorem inv_of_run [Fintype T] {l : List (KeyOp T)}
    (hrun : run (only Clean History.step) l init = some h) : Inv h := by
  refine invariant_of_run ?_ hrun inv_init
  intro op h h' hi hstep
  obtain ⟨hclean, hstep⟩ := only_eq_some.mp hstep
  exact hi.step hclean hstep

/-- A key in use is read: the node is there, or it is missing and counts as NULL. -/
theorem getspecific_eq {key : ℕ} (hkey : key < keysMax) (hused : h.keys.used key = true)
    (calloc : Bool) : (h.keys.pthreadGetspecific t key calloc).1 = h.keys.value t key := by
  have hrange : ¬((key : ℤ) < 0 ∨ (key : ℤ) ≥ keysMax) := by omega
  rw [Keys.pthreadGetspecific, if_neg hrange, Int.toNat_natCast]
  cases hfind : h.keys.findStorage t key calloc with
  | none =>
    rw [Keys.findStorage, if_neg (by simp [hused])] at hfind
    have hnone : h.keys.node t key = none := by
      split_ifs at hfind with hnode
      · exact Option.not_isSome_iff_eq_none.mp hnode
    show (0 : UInt64) = (h.keys.node t key).getD 0
    rw [hnone]
    rfl
  | some s' =>
    obtain ⟨-, -, -, hvalue⟩ := Keys.findStorage_spec hfind
    exact hvalue t key

end History

open History

variable {T : Type} [DecidableEq T] [Fintype T] {h : History T}

/-- **Keys are fresh.**  If keys are created only when no thread has a value left under an unused
one, then in every run: a key in use reads, in every thread, as that thread has last set it since its
creation, and NULL if it has not; a new key was not in use; and there is none only if all are. -/
theorem key_values {l : List (KeyOp T)} (hrun : run (only Clean History.step) l init = some h) :
    (∀ (t : T) (key : ℕ) (calloc : Bool), key < keysMax → h.keys.used key = true →
      (h.keys.pthreadGetspecific t key calloc).1 = (h.last t key).getD 0) ∧
    (∀ (within : Bool) (key : ℕ), (h.keys.pthreadKeyCreate within).1 = .ok key →
      key < keysMax ∧ h.keys.used key = false ∧
        (h.keys.pthreadKeyCreate within).2.used = update h.keys.used key true) ∧
    (∀ within, (h.keys.pthreadKeyCreate within).1 = .error .eagain →
      ∀ key < keysMax, h.keys.used key = true) := by
  have hi := inv_of_run hrun
  refine ⟨?_, ?_, ?_⟩
  · intro t key calloc hkey hused
    rw [getspecific_eq hkey hused]
    exact hi.reads t key hkey hused
  · intro within key hkey
    rw [Keys.pthreadKeyCreate] at hkey ⊢
    split_ifs at hkey ⊢
    cases hfree : h.keys.freeKey with
    | none =>
      rw [hfree] at hkey
      cases hkey
    | some i =>
      rw [hfree] at hkey
      cases hkey
      obtain ⟨hlt, hunused⟩ := Keys.freeKey_eq_some hi.hint hfree
      exact ⟨hlt, hunused, rfl⟩
  · intro within heagain
    rw [Keys.pthreadKeyCreate] at heagain
    split_ifs at heagain
    · cases heagain
    cases hfree : h.keys.freeKey with
    | none => exact Keys.freeKey_eq_none hfree
    | some i =>
      rw [hfree] at heagain
      cases heagain

/-- Two threads with a key each, one of which is deleted after its value was reset. -/
def twoKeys : List (KeyOp Bool) :=
  [.create true, .create true, .set false 0 7 true, .set true 1 8 true, .set false 0 0 true, .delete 0,
   .create true]

theorem key_values_twoKeys :
    ∃ h, run (only Clean History.step) twoKeys init = some h ∧
      (h.keys.pthreadGetspecific true 1 true).1 = 8 ∧
      (h.keys.pthreadGetspecific false 2 true).1 = 0 := by
  have hval : (run (only Clean History.step) twoKeys init).map
      (fun h => (h.keys.used 1, h.keys.used 2, h.last true 1, h.last false 2)) =
        some (true, true, some 8, none) := by
    decide +kernel
  obtain ⟨h, hrun, hh⟩ := Option.map_eq_some_iff.mp hval
  simp only [Prod.mk.injEq] at hh
  obtain ⟨hone, htwo, hset, hunset⟩ := hh
  have hreads := (key_values hrun).1
  refine ⟨h, hrun, ?_, ?_⟩
  · have hread := hreads true 1 true (by decide) hone
    rw [hset] at hread
    exact hread
  · have hread := hreads false 2 true (by decide) htwo
    rw [hunset] at hread
    exact hread

/-- All keys are created; one of them is set, deleted and created again. -/
def recycled : List (KeyOp Unit) :=
  replicate 256 (.create true) ++ [.set () 0 7 true, .delete 0, .create true]

/-- The thread has not set the new key, and finds the value of the old one. -/
theorem stale_value :
    ∃ h, run History.step recycled init = some h ∧ h.keys.used 0 = true ∧ h.last () 0 = none ∧
      (h.keys.pthreadGetspecific () 0 true).1 = 7 := by
  have hval : (run History.step recycled init).map
      (fun h => (h.keys.used 0, h.last () 0, (h.keys.pthreadGetspecific () 0 true).1)) =
        some (true, none, 7) := by
    decide +kernel
  obtain ⟨h, hrun, hh⟩ := Option.map_eq_some_iff.mp hval
  simp only [Prod.mk.injEq] at hh
  exact ⟨h, hrun, hh⟩

end Pthread
