/-
What the pointers of `mm_vrd.cpp` represent.

`Rep s l f` says that the list reached from `g_vrdl` consists of the descriptors
`l`, each with its address, linked both ways, and that the free list consists of
the addresses `f`, shares no descriptor with it and is counted right.  Every
function is specified by the lists it leaves; none of them fails to have an
outcome on represented lists.

This file deals with single cells and the free list:

* **`spec_getVrd`** — a spare descriptor is found unless `malloc` fails;
* **`spec_freeListCheckLevel`** — the free list is refilled or trimmed, the
  list of descriptors stays.
-/
import LinuxSgx.ReservedMem.RsrvMem

namespace ReservedMem

open Prog Dll List

variable {u : Prop} {s s' : Vmm} {l : List (Addr × Vrd)} {f : List Addr} {a : Addr} {c : Cell Vrd}

/-! ### Cells -/

section Cells

theorem wp_node {Q : Cell Vrd → Vmm → Prop} (h : s.heap a = some c) :
    wp u (node a) Q s ↔ Q c s := by
  simp [node, h]

variable {Q : Unit → Vmm → Prop}

theorem wp_writeNode {g : Cell Vrd → Cell Vrd} (h : s.heap a = some c) :
    wp u (writeNode a g) Q s ↔
      Q () { s with heap := Function.update s.heap a (some (g c)) } := by
  rw [writeNode, wp_bind, wp_node h, wp_modify]

variable {p x : Option Addr}

theorem wp_setNextOf (h : ∀ a ∈ p, ∃ c, s.heap a = some c) :
    wp u (setNextOf p x) Q s ↔ Q () { s with heap := Dll.setNext s.heap p x } := by
  cases p with
  | none => rfl
  | some a =>
    obtain ⟨c, hc⟩ := h a rfl
    rw [setNextOf, wp_writeNode hc, Dll.setNext, hc]
    rfl

theorem wp_setPrevOf (h : ∀ a ∈ p, ∃ c, s.heap a = some c) :
    wp u (setPrevOf p x) Q s ↔ Q () { s with heap := Dll.setPrev s.heap p x } := by
  cases p with
  | none => rfl
  | some a =>
    obtain ⟨c, hc⟩ := h a rfl
    rw [setPrevOf, wp_writeNode hc, Dll.setPrev, hc]
    rfl

theorem wp_free (h : s.heap a = some c) :
    wp u (free a) Q s ↔ Q () { s with heap := Function.update s.heap a none } := by
  rw [free, wp_bind, wp_node h, wp_modify]

end Cells

/-! ### Representation -/

/-- The lists that the state holds. -/
structure Rep (s : Vmm) (l : List (Addr × Vrd)) (f : List Addr) : Prop where
  vrdl : s.vrdl = first l
  list : Seg s.heap none l none
  freeList : s.freeList = f.head?
  stack : Stack s.heap f
  count : s.freeListCount = f.length
  nodup : (l.map Prod.fst ++ f).Nodup
  fresh : ∀ a ∈ l.map Prod.fst ++ f, a < s.nextAddr

/-- A descriptor that is in neither list. -/
structure Spare (s : Vmm) (l : List (Addr × Vrd)) (f : List Addr) (a : Addr) : Prop where
  cell : ∃ c, s.heap a = some c
  notMem : a ∉ l.map Prod.fst ++ f
  fresh : a < s.nextAddr

namespace Rep

variable (h : Rep s l f)
include h

theorem length_le : l.length ≤ s.nextAddr := by
  have hn : (l.map Prod.fst).Nodup := h.nodup.of_append_left
  have hsub : (l.map Prod.fst) ⊆ List.range s.nextAddr := fun a ha =>
    mem_range.mpr (h.fresh a (mem_append_left _ ha))
  have := (subperm_of_subset hn hsub).length_le
  simpa using this

theorem cell {pre post : List (Addr × Vrd)} {v : Vrd} (hl : l = pre ++ (a, v) :: post) :
    s.heap a = some ⟨v, first post, last pre⟩ := by
  subst hl
  have := h.list.cell
  simpa using this

end Rep

/-! ### Answers of `malloc` -/

/-- From `s` to `s'` only calls of `malloc` were added. -/
structure Mallocs (s s' : Vmm) : Prop where
  same : s'.mallocs = s.mallocs
  le : s.mallocCount ≤ s'.mallocCount

theorem Mallocs.refl (s : Vmm) : Mallocs s s := ⟨rfl, le_rfl⟩

theorem Mallocs.trans {s'' : Vmm} (h : Mallocs s s') (h' : Mallocs s' s'') : Mallocs s s'' :=
  ⟨h'.same.trans h.same, h.le.trans h'.le⟩

/-- From `s` to `s'` there was no call of `malloc`. -/
structure NoMallocs (s s' : Vmm) : Prop where
  same : s'.mallocs = s.mallocs
  count : s'.mallocCount = s.mallocCount

theorem NoMallocs.mallocs (h : NoMallocs s s') : Mallocs s s' := ⟨h.same, h.count.ge⟩

/-- Some `malloc` between the two states failed. -/
def MallocFailed (s s' : Vmm) : Prop :=
  ∃ i, s.mallocCount ≤ i ∧ i < s'.mallocCount ∧ s.mallocs i = false

theorem MallocFailed.mono {s₀ s₁ : Vmm} (h : MallocFailed s s') (h₀ : Mallocs s₀ s)
    (h₁ : Mallocs s' s₁) : MallocFailed s₀ s₁ := by
  obtain ⟨i, hi, hi', hf⟩ := h
  exact ⟨i, h₀.le.trans hi, lt_of_lt_of_le hi' h₁.le, by rw [← h₀.same]; exact hf⟩

/-- `get_vrd` can be answered so often (once or twice): from the free list, and from
`malloc` when that is empty.  A refill goes on until `malloc` fails, so the second
descriptor may be had although one call failed. -/
def Supply (s : Vmm) : ℕ → Prop
  | 0 => True
  | 1 => 0 < s.freeListCount ∨ s.mallocs s.mallocCount = true
  | _ => 1 < s.freeListCount ∨ s.mallocs s.mallocCount = true ∧ (s.freeListCount = 1 ∨
      s.mallocs (s.mallocCount + 1) = true ∨ s.mallocs (s.mallocCount + 2) = true)

theorem Supply.one_of_two (h : Supply s 2) : Supply s 1 :=
  h.imp Nat.zero_lt_of_lt And.left

theorem supply_congr {l' : List (Addr × Vrd)} (h : Rep s l f) (h' : Rep s' l' f)
    (hm : NoMallocs s s') (k : ℕ) : Supply s' k ↔ Supply s k := by
  have hc : s'.freeListCount = s.freeListCount := h'.count.trans h.count.symm
  unfold Supply
  rw [hm.same, hm.count, hc]

/-! ### The free list -/

section FreeList

theorem spec_freeListPutVrd (h : Rep s l f) (ha : Spare s l f a) :
    wp u (freeListPutVrd (some a))
      (fun r s' => r = true ∧ Rep s' l (a :: f) ∧ NoMallocs s s') s := by
  obtain ⟨c, hc⟩ := ha.cell
  have hl : a ∉ l.map Prod.fst := fun hm => ha.notMem (mem_append_left _ hm)
  have hf : a ∉ f := fun hm => ha.notMem (mem_append_right _ hm)
  simp only [freeListPutVrd, wp_bind, wp_get, wp_writeNode hc, wp_modify, wp_pure]
  refine ⟨trivial, ⟨h.vrdl, h.list.update hl _, rfl, ?_, ?_, ?_, ?_⟩, rfl, rfl⟩
  · exact ⟨⟨_, Function.update_self _ _ _, h.freeList⟩, h.stack.update hf _⟩
  · exact congrArg (· + 1) h.count
  · exact (perm_middle.nodup_iff).mpr (nodup_cons.mpr ⟨ha.notMem, h.nodup⟩)
  · intro b hb
    rcases mem_cons.mp (perm_middle.mem_iff.mp hb) with rfl | hb
    · exact ha.fresh
    · exact h.fresh b hb

theorem spec_freeListGetVrd (h : Rep s l f) :
    wp u freeListGetVrd (fun r s' => NoMallocs s s' ∧
      match r with
      | none => f = [] ∧ s' = s
      | some a => ∃ f', f = a :: f' ∧ Rep s' l f' ∧ Spare s' l f' a) s := by
  simp only [freeListGetVrd, wp_bind, wp_get, h.count, h.freeList]
  cases f with
  | nil => exact ⟨⟨rfl, rfl⟩, rfl, rfl⟩
  | cons a f =>
    obtain ⟨⟨c, hc, hn⟩, hs⟩ := h.stack
    have hnd := nodup_cons.mp (perm_middle.nodup_iff.mp h.nodup)
    simp only [length_cons, Nat.add_eq_zero_iff, one_ne_zero, and_false, if_false,
      List.head?_cons, wp_bind, wp_node hc, wp_modify, wp_pure]
    refine ⟨⟨rfl, rfl⟩, f, rfl, ⟨h.vrdl, h.list, hn, hs, ?_, hnd.2, fun b hb => ?_⟩,
      ⟨c, hc⟩, hnd.1, h.fresh a (by simp)⟩
    · exact congrArg (· - 1) h.count
    · exact h.fresh b (perm_middle.mem_iff.mpr (mem_cons_of_mem _ hb))

/-- One descriptor taken from the free list is one of the supply. -/
theorem supply_of_taken (h : Rep s l (a :: f)) (h' : Rep s' l f)
    (hm : NoMallocs s s') : Supply s 1 ∧ (Supply s' 1 ↔ Supply s 2) := by
  have hc : s.freeListCount = f.length + 1 := h.count
  simp only [Supply, hm.same, hm.count, h'.count, hc]
  refine ⟨.inl (Nat.succ_pos _), ?_⟩
  cases f with
  | nil => simp
  | cons b f => simp

theorem spec_malloc (h : Rep s l f) :
    wp u malloc (fun r s' => Rep s' l f ∧ s'.mallocs = s.mallocs ∧
      s'.mallocCount = s.mallocCount + 1 ∧
      match r with
      | none => s.mallocs s.mallocCount = false
      | some a => s.mallocs s.mallocCount = true ∧ Spare s' l f a) s := by
  simp only [malloc, wp_bind, wp_get]
  have hnew : s.nextAddr ∉ l.map Prod.fst ++ f := fun hm => (h.fresh _ hm).false
  rw [wp_ite]
  refine ⟨fun hyes => ?_, fun hno => ?_⟩
  · simp only [wp_bind, wp_set, wp_pure]
    refine ⟨{ h with
      list := h.list.update ?_ _, stack := h.stack.update ?_ _
      fresh := fun b hb => (h.fresh b hb).trans (Nat.lt_succ_self _) }, trivial, trivial, hyes,
      ⟨_, Function.update_self _ _ _⟩, hnew, Nat.lt_succ_self _⟩
    · exact fun hm => hnew (mem_append_left _ hm)
    · exact fun hm => hnew (mem_append_right _ hm)
  · simp only [wp_bind, wp_set, wp_pure]
    exact ⟨{ h with }, trivial, trivial, by simpa using hno⟩

/-- A refill that asks at most `n` times has `k` descriptors from `malloc`; then it
was refused one, or there are enough. -/
structure Refilled (n k : ℕ) (s s' : Vmm) (f f' : List Addr) : Prop where
  same : s'.mallocs = s.mallocs
  length : f'.length = f.length + k
  le : k = 0 ∨ f'.length ≤ allocTarget
  got : ∀ i < k, s.mallocs (s.mallocCount + i) = true
  ended : s'.mallocCount = s.mallocCount + k ∧ (k = n ∨ allocTarget ≤ f'.length) ∨
    s'.mallocCount = s.mallocCount + k + 1 ∧ s.mallocs (s.mallocCount + k) = false

theorem spec_freeListRefill (n : ℕ) (h : Rep s l f) :
    wp u (freeListRefill n) (fun _ s' => ∃ k f', Rep s' l f' ∧ Refilled n k s s' f f') s := by
  induction n generalizing s f with
  | zero => exact ⟨0, f, h, rfl, rfl, .inl rfl, by simp, .inl ⟨rfl, .inl rfl⟩⟩
  | succ n ih =>
    simp only [freeListRefill, wp_bind, wp_get]
    rw [wp_ite]
    refine ⟨fun hlt => ?_, fun hge => ?_⟩
    · simp only [wp_bind]
      refine wp_mono (spec_malloc h) ?_
      rintro r s₁ ⟨h₁, hm₁, hc₁, hr⟩
      cases r with
      | none => exact ⟨0, f, h₁, hm₁, rfl, .inl rfl, by simp, .inr ⟨hc₁, hr⟩⟩
      | some a =>
        refine wp_mono (spec_freeListPutVrd h₁ hr.2) ?_
        rintro r s₂ ⟨hr₂, h₂, hm₂⟩
        subst hr₂
        refine wp_mono (ih h₂) ?_
        rintro _ s₃ ⟨k, f', h₃, hre⟩
        have hm : s₂.mallocs = s.mallocs := hm₂.same.trans hm₁
        have hc : s₂.mallocCount = s.mallocCount + 1 := hm₂.count.trans hc₁
        have hlen := hre.length
        have hgot := hre.got
        have hend := hre.ended
        rw [length_cons] at hlen
        rw [h.count] at hlt
        simp only [hm, hc] at hgot hend
        -- the first answer and those of the other rounds
        refine ⟨k + 1, f', h₃, hre.same.trans hm, by omega, .inr ?_, fun i hi => ?_, ?_⟩
        · rcases hre.le with rfl | hle
          · omega
          · exact hle
        · cases i with
          | zero => exact hr.1
          | succ i =>
            have := hgot i (by omega)
            rwa [Nat.add_assoc, Nat.add_comm 1] at this
        · rw [Nat.add_assoc, Nat.add_comm 1] at hend
          exact hend.imp_left fun h => ⟨h.1, h.2.imp_left (congrArg (· + 1))⟩
    · rw [h.count, not_lt] at hge
      exact ⟨0, f, h, rfl, rfl, .inl rfl, by simp, .inl ⟨rfl, .inr hge⟩⟩

theorem Refilled.mallocs {n k : ℕ} {f' : List Addr} (h : Refilled n k s s' f f') : Mallocs s s' :=
  ⟨h.same, by rcases h.ended with h | h <;> omega⟩

/-- What is released is never the last descriptor. -/
theorem spec_freeListTrim (n : ℕ) (h : Rep s l f) :
    wp u (freeListTrim n) (fun _ s' => Mallocs s s' ∧ ∃ f', Rep s' l f' ∧
      (f' = [] → f = []) ∧ (f.length ≤ allocTarget → s' = s)) s := by
  induction n generalizing s f with
  | zero => exact ⟨Mallocs.refl s, f, h, id, fun _ => rfl⟩
  | succ n ih =>
    simp only [freeListTrim, wp_bind, wp_get]
    rw [wp_ite]
    refine ⟨fun hlt => ?_, fun _ => ⟨Mallocs.refl s, f, h, id, fun _ => rfl⟩⟩
    simp only [wp_bind]
    refine wp_mono (spec_freeListGetVrd h) ?_
    rintro r s₁ ⟨hm₁, hr⟩
    rw [h.count] at hlt
    cases r with
    | none =>
      obtain ⟨hf, rfl⟩ := hr
      exact ⟨hm₁.mallocs, f, h, id, fun _ => rfl⟩
    | some a =>
      obtain ⟨f₁, rfl, h₁, ⟨c, hc⟩, hmem, -⟩ := hr
      simp only [wp_bind, wp_free hc]
      have h₂ : Rep { s₁ with heap := Function.update s₁.heap a none } l f₁ :=
        { h₁ with
          list := h₁.list.update (fun hm => hmem (mem_append_left _ hm)) _
          stack := h₁.stack.update (fun hm => hmem (mem_append_right _ hm)) _ }
      refine wp_mono (ih h₂) ?_
      rintro _ s₂ ⟨hm₂, f', h', hf', -⟩
      refine ⟨⟨hm₂.same.trans hm₁.same, hm₁.mallocs.le.trans hm₂.le⟩, f', h', fun he => ?_,
        fun hle => absurd hlt (not_lt.mpr hle)⟩
      rw [hf' he, allocTarget] at hlt
      simp at hlt

/-- An empty list is refilled as the supply allows. -/
theorem spec_freeListCheckLevel (h : Rep s l f) :
    wp u freeListCheckLevel (fun _ s' => Mallocs s s' ∧ ∃ f', Rep s' l f' ∧
      (f = [] → (f' = [] → MallocFailed s s' ∧ ¬Supply s 1) ∧
        (f' ≠ [] → Supply s 1 ∧ (Supply s' 2 ↔ Supply s 2)))) s := by
  simp only [freeListCheckLevel, wp_bind, wp_get]
  rw [wp_ite]
  refine ⟨fun hlv => ⟨Mallocs.refl s, f, h, fun hf => ?_⟩, fun _ => ?_⟩
  · rw [h.count, hf, lowThreshold] at hlv
    simp at hlv
  · simp only [wp_bind, wp_get]
    refine wp_mono (spec_freeListRefill _ h) ?_
    rintro _ s₁ ⟨k, f₁, h₁, hre⟩
    refine wp_mono (spec_freeListTrim _ h₁) ?_
    rintro _ s₂ ⟨hm₂, f₂, h₂, -, hsame⟩
    refine ⟨hre.mallocs.trans hm₂, f₂, h₂, fun hf => ?_⟩
    subst hf
    have hlen := hre.length
    have hle := hre.le
    have hend := hre.ended
    rw [length_nil, Nat.zero_add] at hlen
    simp only [allocTarget] at hle hend hsame
    -- a refill of the empty list is never trimmed
    have hs := hsame (by omega)
    subst hs
    have hcount : s.freeListCount = 0 := h.count
    have hf : f₂.length = k := h₂.count.symm.trans (h₁.count.trans hlen)
    simp only [Supply, h₂.count, hf, hcount, hre.same]
    refine ⟨?_, ?_⟩
    · -- nothing was had, so the first `malloc` failed
      rintro rfl
      obtain rfl : k = 0 := hf.symm
      obtain ⟨hc, hno⟩ := hend.resolve_left (by omega)
      exact ⟨⟨s.mallocCount, le_rfl, by omega, hno⟩, by simpa using hno⟩
    · intro hne
      have hk : 0 < k := hf ▸ length_pos_of_ne_nil hne
      have h0 := hre.got 0 hk
      refine ⟨.inr h0, ?_⟩
      -- a second descriptor is there, or was refused; then the next `get_vrd` asks for it again
      rcases Nat.lt_or_ge 1 k with h1 | h1
      · have := hre.got 1 h1
        simp_all
      · obtain rfl : k = 1 := by omega
        obtain ⟨hc, hno⟩ := hend.resolve_left (by omega)
        simp_all

theorem spec_getVrd (h : Rep s l f) :
    wp u getVrd (fun r s' => Mallocs s s' ∧
      match r with
      | none => (MallocFailed s s' ∧ ¬Supply s 1) ∧ Rep s' l []
      | some a => (Supply s 1 ∧ (Supply s' 1 ↔ Supply s 2)) ∧ ∃ f', Rep s' l f' ∧ Spare s' l f' a)
      s := by
  simp only [getVrd, wp_bind]
  refine wp_mono (spec_freeListGetVrd h) ?_
  rintro r s₁ ⟨hm₁, hr⟩
  cases r with
  | some a =>
    obtain ⟨f', rfl, h', ha⟩ := hr
    exact ⟨hm₁.mallocs, supply_of_taken h h' hm₁, f', h', ha⟩
  | none =>
    obtain ⟨rfl, rfl⟩ := hr
    simp only [wp_bind]
    refine wp_mono (spec_freeListCheckLevel h) ?_
    rintro _ s₂ ⟨hm₂, f₂, h₂, hf₂⟩
    refine wp_mono (spec_freeListGetVrd h₂) ?_
    rintro r s₃ ⟨hm₃, hr₃⟩
    refine ⟨hm₂.trans hm₃.mallocs, ?_⟩
    cases r with
    | none =>
      obtain ⟨rfl, rfl⟩ := hr₃
      exact ⟨(hf₂ rfl).1 rfl, h₂⟩
    | some a =>
      obtain ⟨f', rfl, h', ha⟩ := hr₃
      obtain ⟨hone, htwo⟩ := (hf₂ rfl).2 (by simp)
      exact ⟨⟨hone, (supply_of_taken h₂ h' hm₃).2.trans htwo⟩, f', h', ha⟩

end FreeList

end ReservedMem
