/-
Intrusive queues.

The elements of a queue are linked through one field of their own, `next`, and the queue
knows its first and its last element.  An element that is in two queues at the same
time is in neither.

* `LinkPath next p l q` — following `next` from `p` one meets the elements of `l` and then `q`;
* `Fifo.Holds next q l` — the queue `q` consists of the elements of `l`, in this order;
* `insertTail`, `removeHead`, `remove`, `elements`, `contains`, `drain` — the operations, with
  what they do to a queue and which links they leave alone.

`none` is the result of an operation that follows a null pointer or a cycle.
-/
import Mathlib.Data.Fintype.Card

open List Function

variable {α : Type} {next next' : α → Option α} {p q : Option α} {l l' : List α} {a b : α}

/-! ### Paths -/

section LinkPath

/-- From `p` one meets the elements of `l`, and then `q`. -/
def LinkPath (next : α → Option α) : Option α → List α → Option α → Prop
  | p, [], q => p = q
  | p, a :: l, q => p = some a ∧ LinkPath next (next a) l q

theorem linkPath_append {r : Option α} :
    LinkPath next p (l ++ l') r ↔ ∃ q, LinkPath next p l q ∧ LinkPath next q l' r := by
  induction l generalizing p with
  | nil => simp [LinkPath]
  | cons a l ih =>
    rw [cons_append, LinkPath, ih]
    constructor
    · rintro ⟨hp, q, h₁, h₂⟩
      exact ⟨q, ⟨hp, h₁⟩, h₂⟩
    · rintro ⟨q, ⟨hp, h₁⟩, h₂⟩
      exact ⟨hp, q, h₁, h₂⟩

/-- Only the links of the elements matter. -/
theorem LinkPath.congr (h : LinkPath next p l q) (hl : ∀ a ∈ l, next' a = next a) :
    LinkPath next' p l q := by
  induction l generalizing p with
  | nil => exact h
  | cons a l ih =>
    refine ⟨h.1, ?_⟩
    rw [hl a mem_cons_self]
    exact ih h.2 fun b hb => hl b (mem_cons_of_mem a hb)

/-- The element `a` behind `d` is skipped. -/
theorem LinkPath.unlink [DecidableEq α] {d : α} {r : Option α} (h : LinkPath next p (l ++ d :: a :: l') r)
    (hnd : (l ++ d :: a :: l').Nodup) : LinkPath (update next d (next a)) p (l ++ d :: l') r := by
  obtain ⟨q, hstart, hq, -, hrest⟩ := linkPath_append.mp h
  obtain ⟨-, hd, hdisj⟩ := nodup_append.mp hnd
  rw [nodup_cons] at hd
  refine linkPath_append.mpr ⟨q, hstart.congr fun c hc => ?_, hq, ?_⟩
  · exact update_of_ne (hdisj c hc d mem_cons_self) _ _
  · rw [update_self]
    refine hrest.congr fun c hc => ?_
    have hcd : c ≠ d := fun he => hd.1 (he ▸ mem_cons_of_mem a hc)
    exact update_of_ne hcd _ _

/-- A new element `b` is linked in behind the first one. -/
theorem LinkPath.insertSecond [DecidableEq α] {r : Option α} (h : LinkPath next p (a :: l) r)
    (ha : a ∉ l) (hb : b ∉ a :: l) :
    LinkPath (update (update next b (next a)) a (some b)) p (a :: b :: l) r := by
  obtain ⟨hp, h⟩ := h
  have hba : b ≠ a := fun he => hb (he ▸ mem_cons_self)
  refine ⟨hp, ?_, ?_⟩
  · rw [update_self]
  · rw [update_of_ne hba, update_self]
    refine h.congr fun c hc => ?_
    have hca : c ≠ a := fun he => ha (he ▸ hc)
    have hcb : c ≠ b := fun he => hb (he ▸ mem_cons_of_mem a hc)
    rw [update_of_ne hca, update_of_ne hcb]

/-- The elements from `p` on, if there are fewer than `n`. -/
def walk (next : α → Option α) : ℕ → Option α → Option (List α)
  | 0, _ => none
  | _ + 1, none => some []
  | n + 1, some a => (walk next n (next a)).map (a :: ·)

theorem walk_of_path {n : ℕ} (h : LinkPath next p l none) (hn : l.length < n) :
    walk next n p = some l := by
  induction l generalizing p n with
  | nil =>
    cases n with
    | zero => cases hn
    | succ n =>
      rw [show p = none from h]
      rfl
  | cons a l ih =>
    cases n with
    | zero => cases hn
    | succ n =>
      obtain ⟨rfl, h⟩ := h
      rw [walk, ih h (Nat.lt_of_succ_lt_succ hn)]
      rfl

end LinkPath

/-! ### Queues -/

/-- The ends of a queue. -/
structure Fifo (α : Type) where
  first : Option α
  last : Option α
deriving DecidableEq, Repr

namespace Fifo

variable {f : Fifo α}

def empty : Fifo α := ⟨none, none⟩

/-- The queue consists of the elements of `l`. -/
structure Holds (next : α → Option α) (f : Fifo α) (l : List α) : Prop where
  path : LinkPath next f.first l none
  last : f.last = l.getLast?
  nodup : l.Nodup

theorem holds_empty : Holds next empty ([] : List α) := ⟨rfl, rfl, nodup_nil⟩

theorem Holds.congr (h : Holds next f l) (hl : ∀ a ∈ l, next' a = next a) : Holds next' f l :=
  ⟨h.path.congr hl, h.last, h.nodup⟩

theorem Holds.first_eq (h : Holds next f l) : f.first = l.head? := by
  cases l with
  | nil => exact h.path
  | cons a l => exact h.path.1

theorem Holds.first_eq_none (h : Holds next f l) : f.first = none ↔ l = [] := by
  rw [h.first_eq, head?_eq_none_iff]

theorem Holds.eq_empty (h : Holds next f l) (hfirst : f.first = none) : f = empty ∧ l = [] := by
  have hnil : l = [] := h.first_eq_none.mp hfirst
  have hlast : f.last = none := by
    rw [h.last, hnil]
    rfl
  cases f with
  | mk first last =>
    cases hfirst
    cases hlast
    exact ⟨rfl, hnil⟩

section Operations

variable [DecidableEq α]

/-- The new link of `a` is cleared, and the last element is linked to it. -/
def insertTail (next : α → Option α) (f : Fifo α) (a : α) : Option ((α → Option α) × Fifo α) :=
  match f.first, f.last with
  | none, _ => some (update next a none, ⟨some a, some a⟩)
  | some _, none => none
  | some b, some c =>
    some (update (update next a none) c (some a), ⟨some b, some a⟩)

/-- The element itself keeps its link. -/
def removeHead (next : α → Option α) (f : Fifo α) : Option (Fifo α) :=
  f.first.map fun a => ⟨next a, if next a = none then none else f.last⟩

/-- The loop that looks for the element in front of `a`. -/
def unlink (next : α → Option α) (f : Fifo α) (a : α) :
    ℕ → α → Option ((α → Option α) × Fifo α)
  | 0, _ => none
  | n + 1, c =>
    match next c with
    | none => some (next, f)
    | some d =>
      if d = a then
        some (update (update next c (next a)) a none,
          if f.last = some a then ⟨f.first, some c⟩ else f)
      else unlink next f a n d

def remove [Fintype α] (next : α → Option α) (f : Fifo α) (a : α) :
    Option ((α → Option α) × Fifo α) :=
  match f.first with
  | none => some (next, f)
  | some b =>
    if b = a then (removeHead next f).map (next, ·)
    else unlink next f a (Fintype.card α + 1) b

/-- All elements, if the loop over them ends. -/
def elements [Fintype α] (next : α → Option α) (f : Fifo α) : Option (List α) :=
  walk next (Fintype.card α + 1) f.first

/-- The loop that looks for `a` and stops where it finds it. -/
def search (next : α → Option α) (a : α) : ℕ → Option α → Option Bool
  | 0, _ => none
  | _ + 1, none => some false
  | n + 1, some b => if b = a then some true else search next a n (next b)

def contains [Fintype α] (next : α → Option α) (f : Fifo α) (a : α) : Option Bool :=
  search next a (Fintype.card α + 1) f.first

/-- The loop that takes out the first element as long as there is one. -/
def drainLoop (next : α → Option α) : ℕ → Fifo α → Option (Fifo α × List α)
  | 0, _ => none
  | n + 1, f =>
    match f.first with
    | none => some (f, [])
    | some a => do
      let f ← removeHead next f
      let (f, l) ← drainLoop next n f
      return (f, a :: l)

def drain [Fintype α] (next : α → Option α) (f : Fifo α) : Option (Fifo α × List α) :=
  drainLoop next (Fintype.card α + 1) f

omit [DecidableEq α] in
theorem elements_of_holds [Fintype α] (h : Holds next f l) : elements next f = some l :=
  walk_of_path h.path (Nat.lt_succ_of_le h.nodup.length_le_card)

theorem insertTail_spec (h : Holds next f l) (ha : a ∉ l) :
    ∃ next' f', insertTail next f a = some (next', f') ∧ Holds next' f' (l ++ [a]) ∧
      ∀ b, b ≠ a → b ∉ l → next' b = next b := by
  have hnodup : (l ++ [a]).Nodup := by
    rw [nodup_append]
    exact ⟨h.nodup, nodup_singleton a, fun b hb c hc => by
      rw [mem_singleton.mp hc]
      exact fun he => ha (he ▸ hb)⟩
  rcases eq_nil_or_concat l with rfl | ⟨l₀, c, rfl⟩
  · have hfirst : f.first = none := h.path
    refine ⟨_, _, by rw [insertTail, hfirst], ⟨?_, rfl, hnodup⟩, fun b hb _ => ?_⟩
    · refine ⟨rfl, ?_⟩
      show update next a none a = none
      exact update_self a none next
    · exact update_of_ne hb none next
  · have hlast : f.last = some c := by
      rw [h.last, concat_eq_append, getLast?_concat]
    rw [concat_eq_append] at h ha hnodup ⊢
    obtain ⟨b, hfirst⟩ : ∃ b, f.first = some b := by
      rw [h.first_eq]
      cases l₀ with
      | nil => exact ⟨c, rfl⟩
      | cons b l₀ => exact ⟨b, rfl⟩
    obtain ⟨r, hinit, hc⟩ := linkPath_append.mp h.path
    have hca : c ≠ a := fun he => ha (by simp [he])
    have hnot : c ∉ l₀ := fun hc' => by
      have := (nodup_append.mp h.nodup).2.2 c hc' c (mem_singleton_self c)
      exact this rfl
    refine ⟨_, _, by rw [insertTail, hfirst, hlast], ⟨?_, ?_, hnodup⟩, fun b' hb' hl' => ?_⟩
    · -- the old elements are met as before, and then `c` leads to `a`
      show LinkPath _ (some b) ((l₀ ++ [c]) ++ [a]) none
      rw [append_assoc, linkPath_append]
      refine ⟨r, ?_, hc.1, ?_, ?_⟩
      · rw [← hfirst]
        refine hinit.congr fun d hd => ?_
        have hda : d ≠ a := fun he => ha (he ▸ mem_append_left _ hd)
        have hdc : d ≠ c := fun he => hnot (he ▸ hd)
        rw [update_of_ne hdc, update_of_ne hda]
      · rw [update_self]
      · show update (update next a none) c (some a) a = none
        rw [update_of_ne hca.symm, update_self]
    · rw [getLast?_concat]
    · have hbc : b' ≠ c := fun he => hl' (by simp [he])
      rw [update_of_ne hbc, update_of_ne hb']

omit [DecidableEq α] in
theorem removeHead_spec (h : Holds next f (a :: l)) :
    ∃ f', removeHead next f = some f' ∧ Holds next f' l := by
  obtain ⟨hfirst, hpath⟩ := h.path
  refine ⟨⟨next a, if next a = none then none else f.last⟩, by rw [removeHead, hfirst]; rfl, hpath,
    ?_, (nodup_cons.mp h.nodup).2⟩
  cases l with
  | nil => exact if_pos hpath
  | cons b l =>
    have hne : next a ≠ none := by
      rw [hpath.1]
      exact Option.some_ne_none b
    show (if next a = none then none else f.last) = _
    rw [if_neg hne, h.last, getLast?_cons_cons]

theorem search_of_path {n : ℕ} (h : LinkPath next p l none) (hn : l.length < n) :
    search next a n p = some (decide (a ∈ l)) := by
  induction l generalizing p n with
  | nil =>
    cases n with
    | zero => cases hn
    | succ n =>
      rw [show p = none from h]
      rfl
  | cons b l ih =>
    cases n with
    | zero => cases hn
    | succ n =>
      obtain ⟨rfl, h⟩ := h
      rw [search]
      by_cases hba : b = a
      · rw [if_pos hba, decide_eq_true (hba ▸ mem_cons_self)]
      · rw [if_neg hba, ih h (Nat.lt_of_succ_lt_succ hn)]
        have hiff : a ∈ b :: l ↔ a ∈ l := by
          rw [mem_cons, or_iff_right (fun he => hba he.symm)]
        rw [decide_eq_decide.mpr hiff]

theorem contains_of_holds [Fintype α] (h : Holds next f l) :
    contains next f a = some (decide (a ∈ l)) :=
  search_of_path h.path (Nat.lt_succ_of_le h.nodup.length_le_card)

omit [DecidableEq α] in
theorem drainLoop_spec {n : ℕ} (h : Holds next f l) (hn : l.length < n) :
    ∃ f', drainLoop next n f = some (f', l) ∧ Holds next f' [] := by
  induction l generalizing f n with
  | nil =>
    cases n with
    | zero => cases hn
    | succ n =>
      refine ⟨f, ?_, h⟩
      rw [drainLoop, show f.first = none from h.path]
  | cons a l ih =>
    cases n with
    | zero => cases hn
    | succ n =>
      obtain ⟨f₁, hf₁, h₁⟩ := removeHead_spec h
      obtain ⟨f', hf', h'⟩ := ih h₁ (Nat.lt_of_succ_lt_succ hn)
      refine ⟨f', ?_, h'⟩
      rw [drainLoop, h.path.1]
      show (removeHead next f).bind _ = _
      rw [hf₁, Option.bind_some, hf']
      rfl

omit [DecidableEq α] in
theorem drain_spec [Fintype α] (h : Holds next f l) :
    ∃ f', drain next f = some (f', l) ∧ Holds next f' [] :=
  drainLoop_spec h (Nat.lt_succ_of_le h.nodup.length_le_card)

/-- The loop finds the element `d` in front of `a`. -/
theorem unlink_spec {d : α} (n : ℕ) :
    ∀ {c : α} {m : List α}, LinkPath next (some c) (m ++ d :: a :: l) none →
      (m ++ d :: a :: l).Nodup → m.length < n →
      unlink next f a n c = some (update (update next d (next a)) a none,
        if f.last = some a then ⟨f.first, some d⟩ else f) := by
  induction n with
  | zero =>
    intro c m _ _ hn
    cases hn
  | succ n ih =>
    intro c m h hnd hn
    cases m with
    | nil =>
      obtain ⟨hc, hd, -⟩ := h
      cases hc
      rw [unlink, hd]
      exact if_pos rfl
    | cons c' m =>
      obtain ⟨hc, h⟩ := h
      cases hc
      rw [cons_append, nodup_cons] at hnd
      -- the element after `c` is not `a`, which comes later
      obtain ⟨e, he, hea⟩ : ∃ e, next c = some e ∧ e ≠ a := by
        cases m with
        | nil =>
          refine ⟨d, h.1, ?_⟩
          have hd := nodup_cons.mp hnd.2
          exact fun he => hd.1 (he ▸ mem_cons_self)
        | cons e m =>
          refine ⟨e, h.1, ?_⟩
          have he := nodup_cons.mp hnd.2
          exact fun hea => he.1 (hea ▸ by simp)
      rw [unlink, he]
      show (if e = a then _ else _) = _
      rw [if_neg hea]
      exact ih (he ▸ h) hnd.2 (Nat.lt_of_succ_lt_succ hn)

theorem remove_spec [Fintype α] (h : Holds next f l) (ha : a ∈ l) :
    ∃ next' f', remove next f a = some (next', f') ∧ Holds next' f' (l.erase a) ∧
      ∀ b, b ∉ l → next' b = next b := by
  obtain ⟨l₁, l₂, rfl⟩ := append_of_mem ha
  have hnot : a ∉ l₁ := fun hmem =>
    (nodup_append.mp h.nodup).2.2 a hmem a mem_cons_self rfl
  have hnd := h.nodup
  rw [erase_append_right _ hnot, erase_cons_head]
  rcases eq_nil_or_concat l₁ with rfl | ⟨m, d, rfl⟩
  · obtain ⟨f', hf', h'⟩ := removeHead_spec h
    refine ⟨next, f', ?_, h', fun _ _ => rfl⟩
    rw [remove, h.path.1]
    show (if a = a then _ else _) = _
    rw [if_pos rfl, hf']
    rfl
  · rw [concat_eq_append, append_assoc, singleton_append] at h hnd
    rw [concat_eq_append] at hnot ⊢
    obtain ⟨b, hfirst, hba⟩ : ∃ b, f.first = some b ∧ b ≠ a := by
      rw [h.first_eq]
      cases m with
      | nil => exact ⟨d, rfl, fun he => hnot (by simp [he])⟩
      | cons b m => exact ⟨b, rfl, fun he => hnot (by simp [he])⟩
    have hloop := unlink_spec (f := f) (Fintype.card α + 1) (hfirst ▸ h.path) hnd (by
      have hcard := hnd.length_le_card
      rw [length_append] at hcard
      omega)
    refine ⟨_, _, by rw [remove, hfirst]; show (if b = a then _ else _) = _; rw [if_neg hba, hloop],
      ?_, ?_⟩
    · have hne : d ≠ a := fun he => hnot (by simp [he])
      have hskip := h.path.unlink hnd
      rw [nodup_append] at hnd
      obtain ⟨hm, hda, hdisj⟩ := hnd
      rw [nodup_cons, nodup_cons] at hda
      refine ⟨?_, ?_, ?_⟩
      · have hfst : (if f.last = some a then (⟨f.first, some d⟩ : Fifo α) else f).first = f.first := by
          split <;> rfl
        rw [hfst, append_assoc, singleton_append]
        refine hskip.congr fun c hc => ?_
        -- the element that was taken out is not among the others
        refine update_of_ne (fun hca => ?_) _ _
        rw [hca] at hc
        rcases mem_append.mp hc with hc | hc
        · exact hnot (mem_append_left _ hc)
        · rcases mem_cons.mp hc with hc | hc
          · exact hne hc.symm
          · exact hda.2.1 hc
      · have hlast := h.last
        cases l₂ with
        | nil =>
          have hla : f.last = some a := by
            rw [hlast, append_cons, getLast?_concat]
          rw [if_pos hla, append_nil, getLast?_concat]
        | cons e l₂ =>
          have hlast : f.last = (e :: l₂).getLast? := by
            rw [hlast, getLast?_append_of_ne_nil _ (cons_ne_nil _ _),
              getLast?_cons_cons, getLast?_cons_cons]
          have hla : f.last ≠ some a := fun he => by
            have hmem := mem_of_getLast? (hlast ▸ he)
            exact hda.2.1 hmem
          rw [if_neg hla, hlast, getLast?_append_of_ne_nil _ (cons_ne_nil _ _)]
      · rw [append_assoc, singleton_append, nodup_append, nodup_cons]
        refine ⟨hm, ⟨fun hmem => hda.1 (mem_cons_of_mem a hmem), hda.2.2⟩, ?_⟩
        intro c hc e he
        refine hdisj c hc e ?_
        rcases mem_cons.mp he with rfl | he
        · exact mem_cons_self
        · exact mem_cons_of_mem _ (mem_cons_of_mem _ he)
    · intro c hc
      have hca : c ≠ a := fun he => hc (by simp [he])
      have hcd : c ≠ d := fun he => hc (by simp [he])
      rw [update_of_ne hca, update_of_ne hcd]

end Operations

end Fifo
