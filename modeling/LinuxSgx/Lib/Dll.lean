/-
Doubly linked lists in a heap.

A heap maps addresses to cells, and `Seg h q l e` says that the cells listed in
`l` are linked in that order: the first cell points back to `q`, the last one
forward to `e`.  Two address-level writes, `setNext` and `setPrev`, which do
nothing at a null pointer, are all that insertion and removal need:

* **`seg_append`** — a segment falls into two at any point;
* **`Seg.setNext`**, **`Seg.setPrev`** — redirecting the outer pointer of a
  segment's last or first cell;
* **`Seg.frame`** — writes elsewhere leave a segment alone.

A singly linked free list is a `Stack`.
-/
import Mathlib

namespace Dll

open Function List

variable {α : Type}

structure Cell (α : Type) where
  val : α
  next : Option ℕ
  prev : Option ℕ
deriving DecidableEq, Repr

abbrev Heap (α : Type) := ℕ → Option (Cell α)

/-- The address a list of cells starts at. -/
def first (l : List (ℕ × α)) : Option ℕ := l.head?.map Prod.fst

/-- The address a list of cells ends at. -/
def last (l : List (ℕ × α)) : Option ℕ := l.getLast?.map Prod.fst

@[simp] theorem first_nil : first ([] : List (ℕ × α)) = none := rfl

@[simp] theorem first_cons (c : ℕ × α) (l : List (ℕ × α)) : first (c :: l) = some c.1 := rfl

@[simp] theorem last_nil : last ([] : List (ℕ × α)) = none := rfl

@[simp] theorem last_concat (l : List (ℕ × α)) (c : ℕ × α) : last (l ++ [c]) = some c.1 := by
  simp [last]

theorem last_cons (c : ℕ × α) (l : List (ℕ × α)) : last (c :: l) = (last l).or (some c.1) := by
  rcases eq_nil_or_concat l with rfl | ⟨l, d, rfl⟩
  · rfl
  · rw [concat_eq_append, ← List.cons_append, last_concat, last_concat, Option.some_or]

theorem mem_of_first {l : List (ℕ × α)} {a : ℕ} (h : first l = some a) : a ∈ l.map Prod.fst := by
  cases l with
  | nil => cases h
  | cons c l =>
    cases h
    simp

theorem mem_of_last {l : List (ℕ × α)} {a : ℕ} (h : last l = some a) : a ∈ l.map Prod.fst := by
  rcases eq_nil_or_concat l with rfl | ⟨l, d, rfl⟩
  · cases h
  · rw [concat_eq_append, last_concat] at h
    cases h
    simp

/-- `l` is linked, with `q` before its first cell and `e` after its last. -/
def Seg (h : Heap α) : Option ℕ → List (ℕ × α) → Option ℕ → Prop
  | _, [], _ => True
  | q, (a, v) :: l, e => h a = some ⟨v, (first l).or e, q⟩ ∧ Seg h (some a) l e

@[simp] theorem seg_nil (h : Heap α) (q e : Option ℕ) : Seg h q [] e := trivial

theorem seg_cons {h : Heap α} {q e : Option ℕ} {a : ℕ} {v : α} {l : List (ℕ × α)} :
    Seg h q ((a, v) :: l) e ↔ h a = some ⟨v, (first l).or e, q⟩ ∧ Seg h (some a) l e := Iff.rfl

variable {h h' : Heap α} {q e : Option ℕ} {l l' : List (ℕ × α)} {a : ℕ} {v : α}

theorem seg_append :
    Seg h q (l ++ l') e ↔ Seg h q l ((first l').or e) ∧ Seg h ((last l).or q) l' e := by
  induction l generalizing q with
  | nil => simp
  | cons c l ih =>
    obtain ⟨a, v⟩ := c
    rw [List.cons_append, seg_cons, seg_cons, ih, last_cons, and_assoc]
    have hf : (first (l ++ l')).or e = (first l).or ((first l').or e) := by
      cases l <;> simp
    rw [hf]
    rcases last l <;> simp

/-- The cell at a place in the list. -/
theorem Seg.cell (hs : Seg h q (l ++ (a, v) :: l') e) :
    h a = some ⟨v, (first l').or e, (last l).or q⟩ :=
  (seg_append.mp hs).2.1

theorem Seg.frame (hs : Seg h q l e) (heq : ∀ a ∈ l.map Prod.fst, h' a = h a) : Seg h' q l e := by
  induction l generalizing q with
  | nil => trivial
  | cons c l ih =>
    obtain ⟨a, v⟩ := c
    refine ⟨(heq a (by simp)).trans hs.1, ih hs.2 fun b hb => heq b ?_⟩
    exact mem_cons_of_mem _ hb

theorem Seg.update (hs : Seg h q l e) (ha : a ∉ l.map Prod.fst) (c : Option (Cell α)) :
    Seg (Function.update h a c) q l e :=
  hs.frame fun _ hb => update_of_ne (ne_of_mem_of_not_mem hb ha) _ _

/-- Overwrite the value of a cell. -/
theorem Seg.setVal (hs : Seg h q (l ++ (a, v) :: l') e) (hn : ((l ++ (a, v) :: l').map Prod.fst).Nodup)
    (w : α) : Seg (Function.update h a (some ⟨w, (first l').or e, (last l).or q⟩)) q
      (l ++ (a, w) :: l') e := by
  obtain ⟨h1, h2, h3⟩ := seg_append.mp hs
  rw [map_append, map_cons, nodup_middle, nodup_cons] at hn
  have hl : a ∉ l.map Prod.fst := fun hm => hn.1 (mem_append_left _ hm)
  have hl' : a ∉ l'.map Prod.fst := fun hm => hn.1 (mem_append_right _ hm)
  exact seg_append.mpr ⟨h1.update hl _, update_self _ _ _, h3.update hl' _⟩

/-! ### Redirecting the ends -/

/-- Set the forward pointer of a cell; at the null pointer nothing happens. -/
def setNext (h : Heap α) : Option ℕ → Option ℕ → Heap α
  | none, _ => h
  | some a, e => Function.update h a ((h a).map fun c => { c with next := e })

/-- Set the backward pointer of a cell; at the null pointer nothing happens. -/
def setPrev (h : Heap α) : Option ℕ → Option ℕ → Heap α
  | none, _ => h
  | some a, q => Function.update h a ((h a).map fun c => { c with prev := q })

variable {o : Option ℕ}

theorem setNext_of_ne (ha : o ≠ some a) : setNext h o e a = h a := by
  cases o with
  | none => rfl
  | some b => exact update_of_ne (fun hab => ha (congrArg some hab.symm)) _ _

theorem setPrev_of_ne (ha : o ≠ some a) : setPrev h o q a = h a := by
  cases o with
  | none => rfl
  | some b => exact update_of_ne (fun hab => ha (congrArg some hab.symm)) _ _

theorem setNext_congr (ha : h' a = h a) : setNext h' o e a = setNext h o e a := by
  by_cases ho : o = some a
  · subst ho
    simp [setNext, ha]
  · rw [setNext_of_ne ho, setNext_of_ne ho, ha]

theorem setPrev_congr (ha : h' a = h a) : setPrev h' o q a = setPrev h o q a := by
  by_cases ho : o = some a
  · subst ho
    simp [setPrev, ha]
  · rw [setPrev_of_ne ho, setPrev_of_ne ho, ha]

theorem setNext_update (ha : o ≠ some a) (c : Option (Cell α)) :
    setNext (Function.update h a c) o e = Function.update (setNext h o e) a c := by
  cases o with
  | none => rfl
  | some b =>
    have hne : b ≠ a := fun hab => ha (congrArg some hab)
    rw [setNext, update_of_ne hne, update_comm hne.symm]
    rfl

theorem setPrev_update (ha : o ≠ some a) (c : Option (Cell α)) :
    setPrev (Function.update h a c) o q = Function.update (setPrev h o q) a c := by
  cases o with
  | none => rfl
  | some b =>
    have hne : b ≠ a := fun hab => ha (congrArg some hab)
    rw [setPrev, update_of_ne hne, update_comm hne.symm]
    rfl

theorem Seg.setNext_frame (hs : Seg h q l e) (ho : ∀ a ∈ o, a ∉ l.map Prod.fst) (x : Option ℕ) :
    Seg (setNext h o x) q l e :=
  hs.frame fun b hb => setNext_of_ne fun hob => ho b hob hb

theorem Seg.setPrev_frame (hs : Seg h q l e) (ho : ∀ a ∈ o, a ∉ l.map Prod.fst) (x : Option ℕ) :
    Seg (setPrev h o x) q l e :=
  hs.frame fun b hb => setPrev_of_ne fun hob => ho b hob hb

/-- The last cell of a segment may be made to point elsewhere. -/
theorem Seg.setNext (hs : Seg h q l e) (hn : (l.map Prod.fst).Nodup) (e' : Option ℕ) :
    Seg (setNext h (last l) e') q l e' := by
  rcases eq_nil_or_concat l with rfl | ⟨l, ⟨b, w⟩, rfl⟩
  · trivial
  · rw [concat_eq_append] at hs hn ⊢
    have hb : b ∉ l.map Prod.fst := by
      rw [map_append, nodup_append] at hn
      exact fun hmem => hn.2.2 b hmem b (by simp) rfl
    have hcell := hs.cell
    rw [last_concat]
    refine seg_append.mpr ⟨((seg_append.mp hs).1).setNext_frame ?_ _, ?_, trivial⟩
    · intro a ha
      cases ha
      exact hb
    · simp [Dll.setNext, hcell]

/-- The first cell of a segment may be made to point back elsewhere. -/
theorem Seg.setPrev (hs : Seg h q l e) (hn : (l.map Prod.fst).Nodup) (q' : Option ℕ) :
    Seg (setPrev h (first l) q') q' l e := by
  cases l with
  | nil => trivial
  | cons c l =>
    obtain ⟨b, w⟩ := c
    obtain ⟨hcell, hl⟩ := hs
    refine ⟨by simp [Dll.setPrev, hcell], hl.setPrev_frame ?_ _⟩
    intro a ha
    cases ha
    exact (nodup_cons.mp hn).1

/-- Replace the middle of a list: the cells around it are redirected, the new
middle is linked in. -/
theorem Seg.splice {pre mid mid' post : List (ℕ × α)} (hs : Seg h q (pre ++ mid ++ post) e)
    (hn : ((pre ++ mid ++ post).map Prod.fst).Nodup)
    (hpre : ∀ a ∈ pre.map Prod.fst, h' a = Dll.setNext h (last pre) ((first (mid' ++ post)).or e) a)
    (hpost : ∀ a ∈ post.map Prod.fst, h' a = Dll.setPrev h (first post) ((last (pre ++ mid')).or q) a)
    (hmid : Seg h' ((last pre).or q) mid' ((first post).or e)) :
    Seg h' q (pre ++ mid' ++ post) e := by
  rw [List.append_assoc] at hs ⊢
  rw [map_append, map_append] at hn
  obtain ⟨h1, h2⟩ := seg_append.mp hs
  obtain ⟨-, h3⟩ := seg_append.mp h2
  refine seg_append.mpr ⟨(h1.setNext hn.of_append_left.of_append_left _).frame hpre,
    seg_append.mpr ⟨hmid, ?_⟩⟩
  have hlast : (last mid').or ((last pre).or q) = (last (pre ++ mid')).or q := by
    rcases eq_nil_or_concat mid' with rfl | ⟨mid', d, rfl⟩
    · simp
    · rw [concat_eq_append, ← List.append_assoc, last_concat, last_concat]
      rfl
  rw [hlast]
  exact (h3.setPrev hn.of_append_right _).frame hpost

/-! ### Singly linked stacks -/

/-- The cells at the addresses `f` are linked forward in that order. -/
def Stack (h : Heap α) : List ℕ → Prop
  | [] => True
  | a :: f => (∃ c, h a = some c ∧ c.next = f.head?) ∧ Stack h f

variable {f : List ℕ}

theorem Stack.frame (hs : Stack h f) (heq : ∀ a ∈ f, h' a = h a) : Stack h' f := by
  induction f with
  | nil => trivial
  | cons a f ih =>
    obtain ⟨⟨c, hc, hn⟩, hs⟩ := hs
    exact ⟨⟨c, (heq a (by simp)).trans hc, hn⟩,
      ih hs fun b hb => heq b (mem_cons_of_mem _ hb)⟩

theorem Stack.update (hs : Stack h f) (ha : a ∉ f) (c : Option (Cell α)) :
    Stack (Function.update h a c) f :=
  hs.frame fun _ hb => update_of_ne (ne_of_mem_of_not_mem hb ha) _ _

end Dll
