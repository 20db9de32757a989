/-
The lifetime of enclave objects (`enclave.cpp`, `__create_enclave` and `sgx_destroy_enclave` in
`urts_com.h`).

The pool is a list of the enclaves by their identifier.  A call refers to its enclave with
`ref_enclave` and gives it back with `unref_enclave`; `remove_enclave` takes it out of
the pool.  Either the remover deletes the object, or, if there are references, it becomes a
zombie, which the last `unref_enclave` deletes.  A creation that fails after `add_enclave` removes
the object as well, and deletes it whatever `remove_enclave` has returned.

* `Pool` — the list, the objects and how often each one has been deleted;
* `System` — the pool and what the threads hold of it, for a run of any threads;
* **`enclave_lifetime`** — if nobody refers to an object whose creation fails, and no reference
  count overflows, an object is deleted once, after it was removed and nobody refers to it any more;
* **`deleted_while_referenced`** — an object whose creation fails during a call is deleted during
  that call, and once more after it.

The mutex of the pool makes every operation one step.
-/
import LinuxSgx.Lib.Runs
import LinuxSgx.Urts.Node
import Mathlib.Algebra.Group.Nat.Defs

open Runs Function List

namespace Urts

/-- `CEnclave`, as far as its lifetime goes. -/
structure CEnclave where
  ref : UInt32
  zombie : Bool
  deriving DecidableEq

/-- `CEnclavePool` with all objects there have ever been: `fresh` is the next one, `deletes` counts
how often an object was deleted. -/
structure Pool where
  list : NodeList UInt64 ℕ
  enclave : ℕ → CEnclave
  deletes : ℕ → ℕ
  fresh : ℕ

inductive Status where
  | success
  | invalidEnclaveId
  deriving DecidableEq

namespace Pool

def empty : Pool := ⟨NodeList.empty 0 0, fun _ => ⟨0, false⟩, fun _ => 0, 0⟩

/-- `delete enclave`. -/
def delete (p : Pool) (o : ℕ) : Pool :=
  { p with deletes := Function.update p.deletes o (p.deletes o + 1) }

/-- `add_enclave` for a new object, which its creator deletes if its identifier is taken. -/
def addEnclave (p : Pool) (id : UInt64) : Pool :=
  let r := p.list.bind id p.fresh
  let q := { p with list := r.1, fresh := p.fresh + 1 }
  if r.2 then q else q.delete p.fresh

def setRef (p : Pool) (o : ℕ) (ref : UInt32) : Pool :=
  { p with enclave := Function.update p.enclave o { p.enclave o with ref := ref } }

theorem setRef_self (p : Pool) (o : ℕ) (ref : UInt32) :
    (p.setRef o ref).enclave o = { p.enclave o with ref := ref } :=
  update_self ..

theorem setRef_of_ne (p : Pool) {o o' : ℕ} (h : o' ≠ o) (ref : UInt32) :
    (p.setRef o ref).enclave o' = p.enclave o' :=
  update_of_ne h ..

theorem setRef_zombie (p : Pool) (o o' : ℕ) (ref : UInt32) :
    ((p.setRef o ref).enclave o').zombie = (p.enclave o').zombie := by
  by_cases h : o' = o
  · subst h
    rw [setRef_self]
  · rw [setRef_of_ne p h]

def refEnclave (p : Pool) (id : UInt64) : Pool × Option ℕ :=
  match p.list.findValue id with
  | none => (p, none)
  | some o => (p.setRef o ((p.enclave o).ref + 1), some o)

def unrefEnclave (p : Pool) (o : ℕ) : Pool :=
  let ref := (p.enclave o).ref - 1
  let q := p.setRef o ref
  if (p.enclave o).zombie = true ∧ ref = 0 then q.delete o else q

def markZombie (p : Pool) (o : ℕ) : Pool :=
  { p with enclave := Function.update p.enclave o { p.enclave o with zombie := true } }

/-- `remove_enclave`: the object, if its caller is to delete it. -/
def removeEnclave (p : Pool) (id : UInt64) : Pool × Option ℕ × Status :=
  match p.list.findValue id with
  | none => (p, none, .invalidEnclaveId)
  | some o =>
    let list := (p.list.unbind id).1
    if (p.enclave o).ref ≠ 0 then ({ p.markZombie o with list := list }, none, .success)
    else ({ p with list := list }, some o, .success)

theorem removeEnclave_of_refs {p : Pool} {id : UInt64} {o : ℕ}
    (h : p.list.findValue id = some o) (href : (p.enclave o).ref ≠ 0) :
    p.removeEnclave id = ({ p.markZombie o with list := (p.list.unbind id).1 }, none, .success) := by
  rw [removeEnclave, h]
  exact if_pos href

theorem removeEnclave_of_no_refs {p : Pool} {id : UInt64} {o : ℕ}
    (h : p.list.findValue id = some o) (href : (p.enclave o).ref = 0) :
    p.removeEnclave id = ({ p with list := (p.list.unbind id).1 }, some o, .success) := by
  rw [removeEnclave, h]
  exact if_neg (not_not.mpr href)

end Pool

/-- The pool, the references that have not been given back, the objects that callers of
`remove_enclave` are about to delete, all that were removed, and those that are being created. -/
structure System (T : Type) where
  pool : Pool
  held : List (T × ℕ)
  returned : List (T × ℕ)
  removed : List ℕ
  creating : List (T × ℕ × UInt64)

/-- `create` is `__create_enclave` up to `add_enclave`; then it succeeds (`created`) or fails. -/
inductive Action (T : Type) where
  | create (t : T) (id : UInt64)
  | created (t : T) (o : ℕ) (id : UInt64)
  | fail (t : T) (o : ℕ) (id : UInt64)
  | ref (t : T) (id : UInt64)
  | unref (t : T) (o : ℕ)
  | remove (t : T) (id : UInt64)
  | delete (t : T) (o : ℕ)

section System

variable {T : Type} {s s' : System T} {t : T} {o : ℕ} {id : UInt64}

namespace System

def init : System T := ⟨Pool.empty, [], [], [], []⟩

/-- A thread gives back only what it holds, and deletes what `remove_enclave` returned to it and
what it could not create. -/
def step [DecidableEq T] : Action T → System T → Option (System T)
  | .create t id, s =>
    some { s with
      pool := s.pool.addEnclave id
      creating := if (s.pool.list.bind id s.pool.fresh).2 then (t, s.pool.fresh, id) :: s.creating
        else s.creating }
  | .created t o id, s =>
    if (t, o, id) ∈ s.creating then some { s with creating := s.creating.erase (t, o, id) }
    else none
  | .fail t o id, s =>
    if (t, o, id) ∈ s.creating then
      -- the result of `remove_enclave` is ignored
      some { s with
        pool := (s.pool.removeEnclave id).1
        returned := (t, o) :: s.returned
        removed := (s.pool.list.findValue id).toList ++ s.removed
        creating := s.creating.erase (t, o, id) }
    else none
  | .ref t id, s =>
    let r := s.pool.refEnclave id
    some { s with pool := r.1, held := (r.2.map fun o => (t, o)).toList ++ s.held }
  | .unref t o, s =>
    if (t, o) ∈ s.held then
      some { s with pool := s.pool.unrefEnclave o, held := s.held.erase (t, o) }
    else none
  | .remove t id, s =>
    let r := s.pool.removeEnclave id
    some { s with
      pool := r.1
      returned := (r.2.1.map fun o => (t, o)).toList ++ s.returned
      removed := (s.pool.list.findValue id).toList ++ s.removed }
  | .delete t o, s =>
    if (t, o) ∈ s.returned then
      some { s with pool := s.pool.delete o, returned := s.returned.erase (t, o) }
    else none

/-- The number of references to `o` that have not been given back. -/
def refs (s : System T) (o : ℕ) : ℕ := (s.held.map Prod.snd).count o

/-- A creation fails only while its object is in the pool and nobody refers to it, and a reference
is taken only while there are fewer than 2 ^ 32 - 1 of them. -/
def Careful (s : System T) : Action T → Prop
  | .fail _ o id => s.pool.list.findValue id = some o ∧ s.refs o = 0
  | .ref _ id => ∀ o ∈ s.pool.list.findValue id, s.refs o + 1 < 2 ^ 32
  | _ => True

instance (s : System T) (a : Action T) : Decidable (s.Careful a) := by
  cases a <;> unfold Careful <;> infer_instance

/-- The number of callers that are about to delete `o`. -/
def pending (s : System T) (o : ℕ) : ℕ := (s.returned.map Prod.snd).count o

/-! ### The life of an object -/

/-- Where an object is in its life; `l` are the enclaves in the pool. -/
inductive Life (s : System T) (l : List (UInt64 × ℕ)) (o : ℕ) : Prop
  | new (hfresh : s.pool.fresh ≤ o) (hlist : o ∉ l.map Prod.snd)
      (hzombie : (s.pool.enclave o).zombie = false) (hdeletes : s.pool.deletes o = 0)
      (hpending : s.pending o = 0) (hrefs : s.refs o = 0)
  | listed (hfresh : o < s.pool.fresh) (hlist : o ∈ l.map Prod.snd)
      (hzombie : (s.pool.enclave o).zombie = false) (hdeletes : s.pool.deletes o = 0)
      (hpending : s.pending o = 0)
  | zombie (hfresh : o < s.pool.fresh) (hlist : o ∉ l.map Prod.snd)
      (hzombie : (s.pool.enclave o).zombie = true) (hdeletes : s.pool.deletes o = 0)
      (hpending : s.pending o = 0) (hrefs : 0 < s.refs o)
  | returned (hfresh : o < s.pool.fresh) (hlist : o ∉ l.map Prod.snd)
      (hzombie : (s.pool.enclave o).zombie = false) (hdeletes : s.pool.deletes o = 0)
      (hpending : s.pending o = 1) (hrefs : s.refs o = 0)
  | deleted (hfresh : o < s.pool.fresh) (hlist : o ∉ l.map Prod.snd)
      (hdeletes : s.pool.deletes o = 1) (hpending : s.pending o = 0) (hrefs : s.refs o = 0)

/-- The pool holds the enclaves of `l`, every object is somewhere in its life, and its count
is the number of references. -/
structure Inv (s : System T) (l : List (UInt64 × ℕ)) : Prop where
  rep : s.pool.list.Rep l
  keys : (l.map Prod.fst).Nodup
  objects : (l.map Prod.snd).Nodup
  life : ∀ o, s.Life l o
  count : ∀ o, (s.pool.enclave o).ref.toNat = s.refs o
  removed : ∀ o ∈ s.removed, o < s.pool.fresh ∧ o ∉ l.map Prod.snd

variable {l : List (UInt64 × ℕ)}

/-- Nothing has changed for `o`. -/
theorem Life.congr {l' : List (UInt64 × ℕ)} (h : s.Life l o)
    (hfresh : o < s'.pool.fresh ↔ o < s.pool.fresh)
    (hlist : o ∈ l'.map Prod.snd ↔ o ∈ l.map Prod.snd)
    (hzombie : (s'.pool.enclave o).zombie = (s.pool.enclave o).zombie)
    (hdeletes : s'.pool.deletes o = s.pool.deletes o) (hpending : s'.pending o = s.pending o)
    (hrefs : s'.refs o = s.refs o) : s'.Life l' o := by
  rcases h with ⟨h₁, h₂, h₃, h₄, h₅, h₆⟩ | ⟨h₁, h₂, h₃, h₄, h₅⟩ | ⟨h₁, h₂, h₃, h₄, h₅, h₆⟩ |
    ⟨h₁, h₂, h₃, h₄, h₅, h₆⟩ | ⟨h₁, h₂, h₄, h₅, h₆⟩
  · exact .new (not_lt.mp fun h => not_lt.mpr h₁ (hfresh.mp h)) (mt hlist.mp h₂)
      (hzombie.trans h₃) (hdeletes.trans h₄) (hpending.trans h₅) (hrefs.trans h₆)
  · exact .listed (hfresh.mpr h₁) (hlist.mpr h₂) (hzombie.trans h₃) (hdeletes.trans h₄)
      (hpending.trans h₅)
  · exact .zombie (hfresh.mpr h₁) (mt hlist.mp h₂) (hzombie.trans h₃) (hdeletes.trans h₄)
      (hpending.trans h₅) (hrefs ▸ h₆)
  · exact .returned (hfresh.mpr h₁) (mt hlist.mp h₂) (hzombie.trans h₃) (hdeletes.trans h₄)
      (hpending.trans h₅) (hrefs.trans h₆)
  · exact .deleted (hfresh.mpr h₁) (mt hlist.mp h₂) (hdeletes.trans h₄)
      (hpending.trans h₅) (hrefs.trans h₆)

theorem Life.of_mem (h : s.Life l o) (ho : o ∈ l.map Prod.snd) :
    o < s.pool.fresh ∧ (s.pool.enclave o).zombie = false ∧ s.pool.deletes o = 0 ∧
      s.pending o = 0 := by
  rcases h with ⟨-, hl⟩ | ⟨h₁, -, h₃, h₄, h₅⟩ | ⟨-, hl⟩ | ⟨-, hl⟩ | ⟨-, hl⟩
  · exact absurd ho hl
  · exact ⟨h₁, h₃, h₄, h₅⟩
  · exact absurd ho hl
  · exact absurd ho hl
  · exact absurd ho hl

theorem Life.of_fresh (h : s.Life l o) (ho : s.pool.fresh ≤ o) :
    o ∉ l.map Prod.snd ∧ (s.pool.enclave o).zombie = false ∧ s.pool.deletes o = 0 ∧
      s.pending o = 0 ∧ s.refs o = 0 := by
  rcases h with ⟨-, h₂, h₃, h₄, h₅, h₆⟩ | ⟨h₁⟩ | ⟨h₁⟩ | ⟨h₁⟩ | ⟨h₁⟩
  · exact ⟨h₂, h₃, h₄, h₅, h₆⟩
  all_goals exact absurd h₁ (not_lt.mpr ho)

/-- An object with references is in the pool or a zombie. -/
theorem Life.of_refs (h : s.Life l o) (hr : 0 < s.refs o) :
    o < s.pool.fresh ∧ s.pool.deletes o = 0 ∧ s.pending o = 0 ∧
      (o ∈ l.map Prod.snd ↔ (s.pool.enclave o).zombie = false) := by
  rcases h with ⟨-, -, -, -, -, h₆⟩ | ⟨h₁, h₂, h₃, h₄, h₅⟩ | ⟨h₁, h₂, h₃, h₄, h₅, -⟩ |
    ⟨-, -, -, -, -, h₆⟩ | ⟨-, -, -, -, h₆⟩
  · exact absurd h₆ hr.ne'
  · exact ⟨h₁, h₄, h₅, iff_of_true h₂ h₃⟩
  · exact ⟨h₁, h₄, h₅, iff_of_false h₂ (h₃ ▸ Bool.noConfusion)⟩
  · exact absurd h₆ hr.ne'
  · exact absurd h₆ hr.ne'

/-- An object that is about to be deleted has no references. -/
theorem Life.of_pending (h : s.Life l o) (hp : 0 < s.pending o) :
    o < s.pool.fresh ∧ o ∉ l.map Prod.snd ∧ s.pool.deletes o = 0 ∧ s.pending o = 1 ∧
      s.refs o = 0 := by
  rcases h with ⟨-, -, -, -, h₅, -⟩ | ⟨-, -, -, -, h₅⟩ | ⟨-, -, -, -, h₅, -⟩ |
    ⟨h₁, h₂, -, h₄, h₅, h₆⟩ | ⟨-, -, -, h₅, -⟩
  · exact absurd h₅ hp.ne'
  · exact absurd h₅ hp.ne'
  · exact absurd h₅ hp.ne'
  · exact ⟨h₁, h₂, h₄, h₅, h₆⟩
  · exact absurd h₅ hp.ne'

theorem inv_init : (init : System T).Inv [] := by
  refine ⟨NodeList.rep_empty, nodup_nil, nodup_nil, fun o => ?_, fun o => rfl, ?_⟩
  · exact .new (Nat.zero_le o) (not_mem_nil) rfl rfl rfl rfl
  · intro o ho
    cases ho

/-! ### The steps -/

/-- The count is at least one while a reference is held. -/
theorem Inv.dec (h : s.Inv l) (hpos : 0 < s.refs o) :
    ((s.pool.enclave o).ref - 1).toNat = s.refs o - 1 := by
  have hle : (1 : UInt32) ≤ (s.pool.enclave o).ref := by
    rw [UInt32.le_iff_toNat_le, h.count o]
    exact hpos
  rw [UInt32.toNat_sub_of_le _ _ hle, h.count o]
  rfl

/-- Nothing depends on which creations go on. -/
theorem Inv.setCreating (h : s.Inv l) (c : List (T × ℕ × UInt64)) :
    Inv { s with creating := c } l :=
  { h with life := fun o => (h.life o).congr Iff.rfl Iff.rfl rfl rfl rfl rfl }

variable [DecidableEq T]

theorem refs_erase {held : List (T × ℕ)} (h : (t, o) ∈ held) (o' : ℕ) :
    ((held.erase (t, o)).map Prod.snd).count o'
      = (held.map Prod.snd).count o' - if o = o' then 1 else 0 := by
  have hperm : held.Perm ((t, o) :: held.erase (t, o)) := perm_cons_erase h
  rw [(hperm.map Prod.snd).count_eq, map_cons, count_cons]
  simp

theorem Inv.create (h : s.Inv l) (hs : step (.create t id) s = some s') : ∃ l', s'.Inv l' := by
  cases hs
  obtain ⟨hlist, hzombie, hdeletes, hpending, hrefs⟩ := (h.life s.pool.fresh).of_fresh le_rfl
  have hadd := NodeList.bind_spec (k := id) (v := s.pool.fresh) h.rep
  have hother : ∀ {o}, o ≠ s.pool.fresh → (o < s.pool.fresh + 1 ↔ o < s.pool.fresh) := by
    intro o ho
    omega
  by_cases hid : id ∈ l.map Prod.fst
  · -- the identifier is taken: the new object is deleted at once
    rw [if_pos hid] at hadd
    refine ⟨l, ?_⟩
    rw [Pool.addEnclave, hadd]
    refine ⟨h.rep, h.keys, h.objects, fun o => ?_, h.count, fun o ho => ?_⟩
    · by_cases ho : o = s.pool.fresh
      · subst ho
        refine .deleted (Nat.lt_succ_self _) hlist ?_ hpending hrefs
        show update s.pool.deletes _ _ _ = 1
        rw [update_self, hdeletes]
      · exact (h.life o).congr (hother ho) Iff.rfl rfl (update_of_ne ho _ _) rfl rfl
    · exact ⟨Nat.lt_succ_of_lt (h.removed o ho).1, (h.removed o ho).2⟩
  · rw [if_neg hid] at hadd
    obtain ⟨htrue, hrep⟩ := hadd
    have hperm := NodeList.insertSecond_perm (e := (id, s.pool.fresh)) (l := l)
    have hmem : ∀ o, o ∈ (NodeList.insertSecond (id, s.pool.fresh) l).map Prod.snd ↔
        o = s.pool.fresh ∨ o ∈ l.map Prod.snd := by
      intro o
      rw [(hperm.map Prod.snd).mem_iff, map_cons, mem_cons]
    refine ⟨NodeList.insertSecond (id, s.pool.fresh) l, ?_⟩
    rw [Pool.addEnclave, htrue]
    refine ⟨hrep, ?_, ?_, fun o => ?_, h.count, fun o ho => ?_⟩
    · rw [(hperm.map Prod.fst).nodup_iff, map_cons, nodup_cons]
      exact ⟨hid, h.keys⟩
    · rw [(hperm.map Prod.snd).nodup_iff, map_cons, nodup_cons]
      exact ⟨hlist, h.objects⟩
    · by_cases ho : o = s.pool.fresh
      · subst ho
        exact .listed (Nat.lt_succ_self _) ((hmem _).mpr (.inl rfl)) hzombie hdeletes hpending
      · refine (h.life o).congr (hother ho) ?_ rfl rfl rfl rfl
        rw [hmem, or_iff_right ho]
    · obtain ⟨hlt, hnot⟩ := h.removed o ho
      refine ⟨Nat.lt_succ_of_lt hlt, fun hm => ?_⟩
      rcases (hmem o).mp hm with rfl | hm
      · exact absurd hlt (lt_irrefl _)
      · exact hnot hm

theorem Inv.ref (h : s.Inv l) (hno : s.Careful (.ref t id)) (hs : step (.ref t id) s = some s') :
    s'.Inv l := by
  cases hs
  cases hfind : s.pool.list.findValue id with
  | none =>
    rw [Pool.refEnclave, hfind]
    exact h
  | some o =>
    have hlist : o ∈ l.map Prod.snd := List.mem_map_of_mem (NodeList.mem_of_findValue h.rep hfind)
    obtain ⟨hfresh, hzombie, hdeletes, hpending⟩ := (h.life o).of_mem hlist
    have hrefs : ∀ o', (((t, o) :: s.held).map Prod.snd).count o'
        = s.refs o' + if o = o' then 1 else 0 := by
      intro o'
      rw [map_cons, count_cons]
      simp [refs]
    -- this is where the number of references has to be bounded
    have hcount : ((s.pool.enclave o).ref + 1).toNat = s.refs o + 1 := by
      have hlt := hno o hfind
      rw [UInt32.toNat_add, h.count o, UInt32.toNat_one]
      exact Nat.mod_eq_of_lt hlt
    rw [Pool.refEnclave, hfind]
    refine ⟨h.rep, h.keys, h.objects, fun o' => ?_, fun o' => ?_, h.removed⟩
    · by_cases ho : o' = o
      · subst ho
        refine .listed hfresh hlist ?_ hdeletes hpending
        show (update s.pool.enclave _ _ _).zombie = false
        rw [update_self]
        exact hzombie
      · refine (h.life o').congr Iff.rfl Iff.rfl ?_ rfl rfl ?_
        · exact congrArg CEnclave.zombie (update_of_ne ho _ _)
        · exact (hrefs o').trans (by rw [if_neg (Ne.symm ho), Nat.add_zero])
    · show (update s.pool.enclave _ _ _).ref.toNat = (((t, o) :: s.held).map Prod.snd).count o'
      rw [hrefs]
      by_cases ho : o' = o
      · subst ho
        rw [update_self, if_pos rfl]
        exact hcount
      · rw [update_of_ne ho, if_neg (Ne.symm ho)]
        exact h.count o'

theorem Inv.unref (h : s.Inv l) (hs : step (.unref t o) s = some s') : s'.Inv l := by
  obtain ⟨hheld, hs⟩ := Option.ite_none_right_eq_some.mp hs
  cases hs
  have hpos : 0 < s.refs o := count_pos_iff.mpr (List.mem_map_of_mem hheld)
  have hdec := h.dec hpos
  obtain ⟨hfresh, hdeletes, hpending, hlisted⟩ := (h.life o).of_refs hpos
  have hself : ((s.held.erase (t, o)).map Prod.snd).count o = s.refs o - 1 := by
    rw [refs_erase hheld, if_pos rfl]
    rfl
  have hother : ∀ {o'}, o' ≠ o → ((s.held.erase (t, o)).map Prod.snd).count o' = s.refs o' := by
    intro o' ho
    rw [refs_erase hheld, if_neg (Ne.symm ho), Nat.sub_zero]
    rfl
  have hcount : ∀ o', ((s.pool.setRef o ((s.pool.enclave o).ref - 1)).enclave o').ref.toNat
      = ((s.held.erase (t, o)).map Prod.snd).count o' := by
    intro o'
    by_cases ho : o' = o
    · subst ho
      rw [hself, Pool.setRef_self]
      exact hdec
    · rw [hother ho, Pool.setRef_of_ne _ ho]
      exact h.count o'
  have hzero : (s.pool.enclave o).ref - 1 = 0 ↔ s.refs o - 1 = 0 := by
    rw [← hdec, ← UInt32.toNat_inj]
    rfl
  rw [Pool.unrefEnclave]
  by_cases hlast : (s.pool.enclave o).zombie = true ∧ (s.pool.enclave o).ref - 1 = 0
  · -- the last reference to a zombie
    rw [if_pos hlast]
    refine { h with life := fun o' => ?_, count := hcount }
    by_cases ho : o' = o
    · subst ho
      have hlist : o' ∉ l.map Prod.snd := fun hm =>
        absurd ((hlisted.mp hm).symm.trans hlast.1) (by decide)
      refine .deleted hfresh hlist ?_ hpending (hself.trans (hzero.mp hlast.2))
      show update s.pool.deletes _ _ _ = 1
      rw [update_self]
      exact congrArg (· + 1) hdeletes
    · exact (h.life o').congr Iff.rfl Iff.rfl (Pool.setRef_zombie ..)
        (update_of_ne ho _ _) rfl (hother ho)
  · rw [if_neg hlast]
    refine { h with life := fun o' => ?_, count := hcount }
    by_cases ho : o' = o
    · subst ho
      -- a listed object stays one, and a zombie has references left
      cases hz : (s.pool.enclave o').zombie with
      | false =>
        exact .listed hfresh (hlisted.mpr hz) ((Pool.setRef_zombie ..).trans hz) hdeletes hpending
      | true =>
        have hlist : o' ∉ l.map Prod.snd := fun hm =>
          absurd ((hlisted.mp hm).symm.trans hz) (by decide)
        refine .zombie hfresh hlist ((Pool.setRef_zombie ..).trans hz) hdeletes hpending ?_
        refine lt_of_lt_of_eq (Nat.pos_of_ne_zero fun h0 => ?_) hself.symm
        exact hlast ⟨hz, hzero.mpr h0⟩
    · exact (h.life o').congr Iff.rfl Iff.rfl (Pool.setRef_zombie ..) rfl rfl (hother ho)

theorem Inv.delete (h : s.Inv l) (hs : step (.delete t o) s = some s') : s'.Inv l := by
  obtain ⟨hret, hs⟩ := Option.ite_none_right_eq_some.mp hs
  cases hs
  have hpos : 0 < s.pending o := count_pos_iff.mpr (List.mem_map_of_mem hret)
  obtain ⟨hfresh, hlist, hdeletes, hone, hrefs⟩ := (h.life o).of_pending hpos
  refine { h with life := fun o' => ?_ }
  by_cases ho : o' = o
  · subst ho
    refine .deleted hfresh hlist ?_ ?_ hrefs
    · show update s.pool.deletes _ _ _ = 1
      rw [update_self, hdeletes]
    · refine (refs_erase hret o').trans ?_
      rw [if_pos rfl]
      exact congrArg (· - 1) hone
  · refine (h.life o').congr Iff.rfl Iff.rfl rfl (update_of_ne ho _ _) ?_ rfl
    refine (refs_erase hret o').trans ?_
    rw [if_neg (Ne.symm ho), Nat.sub_zero]
    rfl

theorem Inv.remove (h : s.Inv l) (hs : step (.remove t id) s = some s') :
    ∃ l', s'.Inv l' ∧ id ∉ l'.map Prod.fst := by
  cases hs
  cases hfind : s.pool.list.findValue id with
  | none =>
    rw [Pool.removeEnclave, hfind]
    exact ⟨l, h, (NodeList.findValue_eq_none h.rep).mp hfind⟩
  | some o =>
    have hmem := NodeList.mem_of_findValue h.rep hfind
    have hlist : o ∈ l.map Prod.snd := List.mem_map_of_mem hmem
    obtain ⟨hfresh, hzombie, hdeletes, hpending⟩ := (h.life o).of_mem hlist
    have hrep := (NodeList.unbind_spec (k := id) h.rep).2
    have hperm := NodeList.perm_eraseP h.keys hmem
    obtain ⟨hid, hkeys⟩ := nodup_cons.mp ((hperm.map Prod.fst).nodup_iff.mp h.keys)
    obtain ⟨ho, hobjects⟩ := nodup_cons.mp ((hperm.map Prod.snd).nodup_iff.mp h.objects)
    have hother : ∀ {o'}, o' ≠ o →
        (o' ∈ (l.eraseP fun e => e.1 = id).map Prod.snd ↔ o' ∈ l.map Prod.snd) := by
      intro o' hne
      rw [(hperm.map Prod.snd).mem_iff, map_cons, mem_cons, or_iff_right hne]
    have hremoved : ∀ o' ∈ o :: s.removed,
        o' < s.pool.fresh ∧ o' ∉ (l.eraseP fun e => e.1 = id).map Prod.snd := by
      intro o' ho'
      rcases mem_cons.mp ho' with rfl | ho'
      · exact ⟨hfresh, ho⟩
      · obtain ⟨hlt, hnot⟩ := h.removed o' ho'
        have hne : o' ≠ o := fun he => hnot (he ▸ hlist)
        exact ⟨hlt, fun hm => hnot ((hother hne).mp hm)⟩
    refine ⟨l.eraseP fun e => e.1 = id, ?_, hid⟩
    by_cases href : (s.pool.enclave o).ref ≠ 0
    · -- there are references: a zombie
      have hpos : 0 < s.refs o := by
        refine Nat.pos_of_ne_zero fun h0 => href ?_
        rw [← UInt32.toNat_inj, h.count o, h0]
        rfl
      have hmark : ∀ {o'}, o' ≠ o → (s.pool.markZombie o).enclave o' = s.pool.enclave o' :=
        fun hne => update_of_ne hne ..
      have hself : (s.pool.markZombie o).enclave o = { s.pool.enclave o with zombie := true } :=
        update_self ..
      rw [Pool.removeEnclave_of_refs hfind href]
      refine ⟨hrep, hkeys, hobjects, fun o' => ?_, fun o' => ?_, hremoved⟩
      · by_cases hne : o' = o
        · subst hne
          exact .zombie hfresh ho (congrArg CEnclave.zombie hself) hdeletes hpending hpos
        · exact (h.life o').congr Iff.rfl (hother hne) (congrArg CEnclave.zombie (hmark hne)) rfl
            rfl rfl
      · by_cases hne : o' = o
        · subst hne
          exact (congrArg (fun e => e.ref.toNat) hself).trans (h.count o')
        · exact (congrArg (fun e => e.ref.toNat) (hmark hne)).trans (h.count o')
    · have hzero : s.refs o = 0 := by
        rw [← h.count o, not_not.mp href]
        rfl
      have hcount : ∀ o', (((t, o) :: s.returned).map Prod.snd).count o'
          = s.pending o' + if o = o' then 1 else 0 := by
        intro o'
        rw [map_cons, count_cons]
        simp [pending]
      rw [Pool.removeEnclave_of_no_refs hfind (not_not.mp href)]
      refine ⟨hrep, hkeys, hobjects, fun o' => ?_, h.count, hremoved⟩
      by_cases hne : o' = o
      · subst hne
        refine .returned hfresh ho hzombie hdeletes ((hcount o').trans ?_) hzero
        rw [hpending, if_pos rfl]
      · refine (h.life o').congr Iff.rfl (hother hne) rfl rfl ((hcount o').trans ?_) rfl
        rw [if_neg (Ne.symm hne), Nat.add_zero]

/-- Without references, `remove_enclave` returns the object that is deleted. -/
theorem Inv.fail (h : s.Inv l) (hc : s.Careful (.fail t o id))
    (hs : step (.fail t o id) s = some s') : ∃ l', s'.Inv l' := by
  obtain ⟨-, hs⟩ := Option.ite_none_right_eq_some.mp hs
  cases hs
  obtain ⟨hfind, hrefs⟩ := hc
  have href : (s.pool.enclave o).ref = 0 := by
    rw [← UInt32.toNat_inj, h.count o, hrefs]
    rfl
  obtain ⟨l', h', -⟩ := h.remove (show step (.remove t id) s = some _ from rfl)
  rw [Pool.removeEnclave_of_no_refs hfind href] at h' ⊢
  exact ⟨l', h'.setCreating _⟩

/-- One step keeps the invariant. -/
theorem Inv.step {a : Action T} (h : s.Inv l) (hs : only Careful step a s = some s') :
    ∃ l', s'.Inv l' := by
  obtain ⟨hno, hs⟩ := only_eq_some.mp hs
  cases a with
  | create t id => exact h.create hs
  | created t o id =>
    obtain ⟨-, hs⟩ := Option.ite_none_right_eq_some.mp hs
    cases hs
    exact ⟨l, h.setCreating _⟩
  | fail t o id => exact h.fail hno hs
  | ref t id => exact ⟨l, h.ref hno hs⟩
  | unref t o => exact ⟨l, h.unref hs⟩
  | remove t id =>
    obtain ⟨l', h', -⟩ := h.remove hs
    exact ⟨l', h'⟩
  | delete t o => exact ⟨l, h.delete hs⟩

theorem exists_inv_of_run {actions : List (Action T)}
    (hrun : run (only Careful step) actions init = some s) : ∃ l, s.Inv l := by
  refine invariant_of_run (I := fun s : System T => ∃ l, s.Inv l) ?_ hrun ⟨[], inv_init⟩
  rintro a s s' ⟨l, h⟩ hs
  exact h.step hs

/-- Thread 2 removes an enclave while thread 1 is in a call. -/
def removeInCall : List (Action ℕ) :=
  [.create 2 7, .created 2 0 7, .ref 1 7, .remove 2 7, .unref 1 0]

/-- The creation of thread 1 fails while thread 2 is in a call. -/
def failInCall : List (Action ℕ) :=
  [.create 1 7, .ref 2 7, .fail 1 0 7, .delete 1 0]

end System

end System

end Urts
